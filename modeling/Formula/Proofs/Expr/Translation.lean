import Formula.Proofs.Expr.Makes
import Formula.Proofs.Limits

/-!
# Translations of trees

A translation gives words other words, and variables trees to stand in their places; everything else of a tree stays as
it is. When a translation agrees with what words are read as (`Translation.Sound`), reductions keep to it: of the
translated tokens a rule makes the translated tree (`Setting.Makes.translate`). Two translations are sound under every
catalog: the one that changes nothing (`Translation.sound_same`), and, without limits, the one that puts a tree in the
place of a variable that no other word stands for (`Translation.sound_replacing`).
-/

namespace Formula

/-- Other words for words, and trees for variables. `Fine` are the words that may be met. -/
structure Translation where
  rename : String → String
  subst : String → Expr
  Fine : String → Prop

namespace Expr

mutual

/-- The tree with other names for what is bound, and other trees in the places of variables. -/
def translate (m : Translation) : Expr → Expr
  | .number literal value => .number literal value
  | .variable name => m.subst name
  | .constant name value => .constant name value
  | .function f => .function f
  | .pos a => .pos (a.translate m)
  | .neg a => .neg (a.translate m)
  | .factorial a ceiling => .factorial (a.translate m) ceiling
  | .absolute a => .absolute (a.translate m)
  | .binary op a b => .binary op (a.translate m) (b.translate m)
  | .power a b ceiling => .power (a.translate m) (b.translate m) ceiling
  | .compose f a => .compose (f.translate m) (a.translate m)
  | .relation op a b => .relation op (a.translate m) (b.translate m)
  | .interval left a b right => .interval left (a.translate m) (b.translate m) right
  | .setInterval set a => .setInterval set (a.translate m)
  | .definition name params body => .definition (m.rename name) (translateList m params) (body.translate m)
  | .call f args => .call f (translateList m args)
  | .limit target a body => .limit (m.rename target) (a.translate m) (body.translate m)
  | .big op var a b body => .big op (m.rename var) (a.translate m) (b.translate m) (body.translate m)
  | .truth a => .truth (a.translate m)

def translateList (m : Translation) : List Expr → List Expr
  | [] => []
  | e :: es => e.translate m :: translateList m es

end

theorem translateList_eq (m : Translation) (es : List Expr) : translateList m es = es.map (translate m) := by
  induction es with
  | nil => rfl
  | cons e es ih => rw [translateList, ih, List.map_cons]

end Expr

/-- The payload with all its trees changed. -/
def Payload.map (f : Expr → Expr) : Payload → Payload
  | .nothing => .nothing
  | .expr e => .expr (f e)
  | .args es => .args (es.map f)

namespace Translation

variable {m : Translation} {s : Setting}

/-- The translation agrees with the readings of words and with the limits. -/
structure Sound (m : Translation) (s : Setting) : Prop where
  resolve : ∀ {w}, m.Fine w → (s.resolve w none).translate m = s.resolve (m.rename w) none
  subscript : ∀ {w u}, m.Fine w → m.Fine u →
    (s.resolve w (some u)).translate m = s.resolve (m.rename w) (some (m.rename u))
  function? : ∀ {w}, m.Fine w → s.catalog.function? (m.rename w) = s.catalog.function? w
  set? : ∀ {w}, m.Fine w → NumberSet.ofName? (m.rename w) = NumberSet.ofName? w
  literal : ∀ {w v}, Number.ofLiteral? w = some v → m.rename w = w
  exponent : ∀ {e : Expr}, (∀ v, e.evaluate = .ok v → Limits.checkExponent s.limits.exponent v = .ok ()) →
    ∀ v, (e.translate m).evaluate = .ok v → Limits.checkExponent s.limits.exponent v = .ok ()
  factorial : ∀ {e : Expr}, (∀ v, e.evaluate = .ok v → Limits.checkFactorial s.limits.factorial v = .ok ()) →
    ∀ v, (e.translate m).evaluate = .ok v → Limits.checkFactorial s.limits.factorial v = .ok ()

/-- The second token is the translation of the first. -/
structure Twin (m : Translation) (t t' : Token) : Prop where
  symbol : t'.symbol = t.symbol
  lexeme : t'.lexeme = m.rename t.lexeme
  payload : t'.payload = t.payload.map (Expr.translate m)
  fine : m.Fine t.lexeme

/-- The tokens of the second phrase are the translations of those of the first, and both or none are behind the sign of
composition. -/
structure Twins (m : Translation) (p p' : Phrase) : Prop where
  tokens : List.Forall₂ m.Twin p.tokens p'.tokens
  below : p'.below = some .compose ↔ p.below = some .compose

theorem symbols_eq {ts ts' : List Token} (h : List.Forall₂ m.Twin ts ts') : ts'.map (·.symbol) = ts.map (·.symbol) := by
  induction h with
  | nil => rfl
  | cons h _ ih => rw [List.map_cons, List.map_cons, h.symbol, ih]

/-- A token that is written alike is a translation, if no word has another name. -/
theorem twin_of_written (hrename : ∀ w, m.rename w = w) {t t' : Token} (h : t'.written = t.written)
    (ht : t.payload = .nothing ∧ m.Fine t.lexeme) (ht' : t'.payload = .nothing) : m.Twin t t' := by
  obtain ⟨hsymbol, hlexeme⟩ := Lexeme.mk.inj h
  refine ⟨hsymbol, hlexeme.trans (hrename _).symm, ?_, ht.2⟩
  rw [ht', ht.1]
  rfl

theorem twins_of_written (hrename : ∀ w, m.rename w = w) {ts ts' : List Token}
    (h : ts'.map Token.written = ts.map Token.written) (hts : ∀ t ∈ ts, t.payload = .nothing ∧ m.Fine t.lexeme)
    (hts' : ∀ t ∈ ts', t.payload = .nothing) : List.Forall₂ m.Twin ts ts' := by
  induction ts generalizing ts' with
  | nil =>
    rw [List.map_eq_nil_iff.mp h]
    exact .nil
  | cons t ts ih =>
    obtain ⟨t', ts', rfl, ht, hrest⟩ := List.map_eq_cons_iff.mp h
    exact .cons (twin_of_written hrename ht (hts t List.mem_cons_self) (hts' t' List.mem_cons_self))
      (ih hrest (fun t ht => hts t (List.mem_cons_of_mem _ ht)) fun t ht => hts' t (List.mem_cons_of_mem _ ht))

namespace Twins

variable {p p' : Phrase} {i : Nat}

theorem token (h : m.Twins p p') {t : Token} (ht : p.tokens[i]? = some t) :
    ∃ t', p'.tokens[i]? = some t' ∧ m.Twin t t' := by
  obtain ⟨hi, rfl⟩ := List.getElem?_eq_some_iff.mp ht
  have hi' : i < p'.tokens.length := h.tokens.length_eq ▸ hi
  exact ⟨p'.tokens[i], List.getElem?_eq_getElem hi', h.tokens.get hi hi'⟩

theorem tree (h : m.Twins p p') {e : Expr} (he : p.Tree i e) : p'.Tree i (e.translate m) := by
  obtain ⟨t, ht, hp⟩ := he
  obtain ⟨t', ht', htwin⟩ := h.token ht
  exact ⟨t', ht', by rw [htwin.payload, hp]; rfl⟩

theorem trees (h : m.Twins p p') {es : List Expr} (he : p.Trees i es) : p'.Trees i (es.map (Expr.translate m)) := by
  obtain ⟨t, ht, hp⟩ := he
  obtain ⟨t', ht', htwin⟩ := h.token ht
  exact ⟨t', ht', by rw [htwin.payload, hp]; rfl⟩

theorem text (h : m.Twins p p') {w : String} (hw : p.Text i w) : p'.Text i (m.rename w) ∧ m.Fine w := by
  obtain ⟨t, ht, rfl⟩ := hw
  obtain ⟨t', ht', htwin⟩ := h.token ht
  exact ⟨⟨t', ht', htwin.lexeme⟩, htwin.fine⟩

end Twins

end Translation

namespace Setting

open Translation (Twin Twins Sound)

variable {m : Translation} {s : Setting}

theorem Literal.translate (hm : m.Sound s) {t t' : Token} {e : Expr} (h : s.Literal t e) (ht : m.Twin t t') :
    s.Literal t' (e.translate m) := by
  obtain ⟨v, hv, hc, rfl⟩ := h
  have hlexeme : t'.lexeme = t.lexeme := ht.lexeme.trans (hm.literal hv)
  exact ⟨v, by rw [hlexeme, hv], by rw [hlexeme, hc], by rw [hlexeme]; rfl⟩

theorem Leading.translate (hm : m.Sound s) {subscript subscript' : Option Token} {lead : List Expr}
    (h : s.Leading subscript lead) (ht : Option.Rel m.Twin subscript subscript') :
    s.Leading subscript' (lead.map (Expr.translate m)) := by
  cases h with
  | none =>
    cases ht
    exact .none
  | number hsymbol he =>
    cases ht with
    | some ht => exact .number (ht.symbol.trans hsymbol) (he.translate hm ht)
  | name hsymbol =>
    cases ht with
    | some ht =>
      rw [List.map_singleton, hm.resolve ht.fine, ← ht.lexeme]
      exact .name (by rwa [ht.symbol])

theorem Calls.translate (hm : m.Sound s) {name : String} (hname : m.Fine name) {subscript subscript' : Option Token}
    (ht : Option.Rel m.Twin subscript subscript') {args : List Expr} {e : Expr} (h : s.Calls name subscript args e) :
    s.Calls (m.rename name) subscript' (args.map (Expr.translate m)) (e.translate m) := by
  cases h with
  | function hf hl ha =>
    rw [Expr.translate, Expr.translateList_eq, List.map_append]
    refine .function (by rwa [hm.function? hname]) (hl.translate hm ht) ?_
    rwa [← List.map_append, List.length_map]
  | product hf ha =>
    subst ha
    have hresolve : (s.resolve name (subscript.map (·.lexeme))).translate m =
        s.resolve (m.rename name) (subscript'.map (·.lexeme)) := by
      cases ht with
      | none => exact hm.resolve hname
      | some ht =>
        rw [Option.map_some, Option.map_some, ht.lexeme]
        exact hm.subscript hname ht.fine
    rw [Expr.translate, hresolve]
    exact .product (by rwa [hm.function? hname]) rfl

/-- Of the translations of tokens a rule makes the translation. -/
theorem Makes.translate (hm : m.Sound s) {p p' : Phrase} (hp : m.Twins p p') {r : Rule} {payload : Payload}
    (h : s.Makes p r payload) : s.Makes p' r (payload.map (Expr.translate m)) := by
  cases h with
  | hand hr he => exact .hand hr (hp.tree he)
  | relation hr ha hb => exact .relation hr (hp.tree ha) (hp.tree hb)
  | interval hr ha hb => exact .interval hr (hp.tree ha) (hp.tree hb)
  | setInterval hn hs he =>
    obtain ⟨hn, hfine⟩ := hp.text hn
    exact .setInterval hn (by rwa [hm.set? hfine]) (hp.tree he)
  | definition hn hps hb =>
    rw [Payload.map, Expr.translate, Expr.translateList_eq]
    exact .definition (hp.text hn).1 (hp.trees hps) (hp.tree hb)
  | definitionWithoutParameters hn hb => exact .definitionWithoutParameters (hp.text hn).1 (hp.tree hb)
  | firstArgument he => exact .firstArgument (hp.tree he)
  | nextArgument hs he =>
    rw [Payload.map, List.map_append]
    exact .nextArgument (hp.trees hs) (hp.tree he)
  | operation hr ha hb => exact .operation hr (hp.tree ha) (hp.tree hb)
  | pos hr he => exact .pos hr (hp.tree he)
  | neg hr he => exact .neg hr (hp.tree he)
  | power ha hb hc => exact .power (hp.tree ha) (hp.tree hb) (hm.exponent hc)
  | factorial ha hc => exact .factorial (hp.tree ha) (hm.factorial hc)
  | number hr ht he =>
    obtain ⟨t', ht', htwin⟩ := hp.token ht
    exact .number hr ht' (he.translate hm htwin)
  | bars he => exact .bars (hp.tree he)
  | function hn hb hf =>
    obtain ⟨hn, hfine⟩ := hp.text hn
    exact .function hn (hp.below.mpr hb) (by rwa [hm.function? hfine])
  | identifier hr hb hn =>
    obtain ⟨hn, hfine⟩ := hp.text hn
    rw [Payload.map, hm.resolve hfine]
    exact .identifier hr (fun hr hc => by rw [hm.function? hfine]; exact hb hr (hp.below.mp hc)) hn
  | subscript hr hn hs =>
    obtain ⟨hn, hfine⟩ := hp.text hn
    obtain ⟨hs, hfine'⟩ := hp.text hs
    rw [Payload.map, hm.subscript hfine hfine']
    exact .subscript hr hn hs
  | call hn ha he =>
    obtain ⟨hn, hfine⟩ := hp.text hn
    exact .call hn (hp.trees ha) (he.translate hm hfine .none)
  | callWithoutArguments hn he =>
    obtain ⟨hn, hfine⟩ := hp.text hn
    exact .callWithoutArguments hn (he.translate hm hfine .none)
  | subscriptCall hr hn hs ha he =>
    obtain ⟨hn, hfine⟩ := hp.text hn
    obtain ⟨t', ht', htwin⟩ := hp.token hs
    exact .subscriptCall hr hn ht' (hp.trees ha) (he.translate hm hfine (.some htwin))
  | composition hn hf he =>
    obtain ⟨hn, hfine⟩ := hp.text hn
    exact .composition hn (by rwa [hm.function? hfine]) (hp.tree he)
  | limit ht ha hb => exact .limit (hp.text ht).1 (hp.tree ha) (hp.tree hb)
  | big hr hv ha hb hc => exact .big hr (hp.text hv).1 (hp.tree ha) (hp.tree hb) (hp.tree hc)

end Setting

/-! ## Sound translations -/

namespace Setting

variable {s : Setting}

/-- The variables that a word stands for. -/
def variablesOf (s : Setting) (word : String) : List String := (s.letters word none).filterMap variableName?

/-- A letter is a variable or a constant. With a subscript it is the variable of that name. -/
theorem mem_letters {word : String} {subscript : Option String} {e : Expr} (h : e ∈ s.letters word subscript) :
    e ∈ s.letters word none ∨ ∃ x u, subscript = some u ∧ e = .variable (x ++ "_" ++ u) := by
  cases subscript with
  | none => exact .inl h
  | some u =>
    unfold letters at h ⊢
    split at h
    · obtain rfl := List.mem_singleton.mp h
      exact .inr ⟨word, u, rfl, rfl⟩
    · rename_i hw
      rw [if_neg hw]
      dsimp only at h ⊢
      split at h
      · cases h
      · rename_i last before hr
        rcases List.mem_append.mp h with h | h
        · exact .inl (List.mem_append_left _ h)
        · obtain rfl := List.mem_singleton.mp h
          exact .inr ⟨last, u, rfl, rfl⟩

theorem mem_letters_none {word : String} {e : Expr} (h : e ∈ s.letters word none) :
    (∃ x, e = .variable x) ∨ ∃ x v, e = .constant x v := by
  have hletter : ∀ x, (∃ y, s.letter x none = .variable y) ∨ ∃ y v, s.letter x none = .constant y v := by
    intro x
    unfold letter
    dsimp only
    split
    · exact .inr ⟨_, _, rfl⟩
    · exact .inl ⟨_, rfl⟩
  unfold letters at h
  split at h
  · obtain rfl := List.mem_singleton.mp h
    exact hletter _
  · dsimp only at h
    split at h
    · cases h
    · rcases List.mem_append.mp h with h | h
      · obtain ⟨x, -, rfl⟩ := List.mem_map.mp h
        exact hletter x
      · obtain rfl := List.mem_singleton.mp h
        exact hletter _

/-- Only the empty word may have no letters. -/
theorem eq_empty_of_letters {word : String} {subscript : Option String} (h : s.letters word subscript = []) :
    word = "" := by
  unfold letters at h
  split at h
  · cases h
  · dsimp only at h
    split at h
    · rename_i hr
      have := List.map_eq_nil_iff.mp (List.reverse_eq_nil_iff.mp hr)
      rwa [String.toList_eq_nil_iff] at this
    · simp at h

/-- A word stands for itself or for its characters. -/
theorem eq_or_mem_of_mem_variablesOf {x word : String} (h : x ∈ s.variablesOf word) :
    x = word ∨ ∃ c ∈ word.toList, x = String.ofList [c] := by
  have hletter : ∀ {y}, variableName? (s.letter y none) = some x → x = y := by
    intro y hy
    unfold letter at hy
    dsimp only at hy
    split at hy
    · cases hy
    · exact (Option.some.inj hy).symm
  obtain ⟨e, he, hx⟩ := List.mem_filterMap.mp h
  unfold letters at he
  split at he
  · obtain rfl := List.mem_singleton.mp he
    exact .inl (hletter hx)
  · dsimp only at he
    split at he
    · cases he
    · rename_i last before hr
      have hchars : ∀ y ∈ before.reverse ++ [last], ∃ c ∈ word.toList, y = String.ofList [c] := by
        intro y hy
        have hrev := congrArg List.reverse hr
        rw [List.reverse_reverse, List.reverse_cons] at hrev
        rw [← hrev] at hy
        obtain ⟨c, hc, rfl⟩ := List.mem_map.mp hy
        exact ⟨c, hc, rfl⟩
      obtain ⟨y, hy, rfl⟩ : ∃ y ∈ before.reverse ++ [last], s.letter y none = e := by
        rw [← List.map_singleton (f := (s.letter · none)), ← List.map_append] at he
        exact List.mem_map.mp he
      rw [hletter hx]
      exact .inr (hchars y hy)

/-- A translation that leaves the letters of a word alone leaves the word alone. -/
theorem resolve_translate {m : Translation} {word : String} {subscript : Option String}
    (hl : ∀ e ∈ s.letters word subscript, e.translate m = e)
    (hw : s.letters word subscript = [] → m.subst word = .variable word) :
    (s.resolve word subscript).translate m = s.resolve word subscript := by
  have hfold : ∀ (es : List Expr) (a : Expr), (∀ e ∈ es, e.translate m = e) →
      (es.foldl (.binary .mul) a).translate m = es.foldl (.binary .mul) (a.translate m) := by
    intro es
    induction es with
    | nil => exact fun a _ => rfl
    | cons e es ih =>
      intro a hes
      rw [List.foldl_cons, List.foldl_cons, ih _ fun e he => hes e (List.mem_cons_of_mem _ he), Expr.translate,
        hes e List.mem_cons_self]
  unfold resolve productOf
  cases he : s.letters word subscript with
  | nil => exact hw he
  | cons e es =>
    rw [he] at hl
    dsimp only [Option.getD_some]
    rw [hfold es e fun e he => hl e (List.mem_cons_of_mem _ he), hl e List.mem_cons_self]

end Setting

namespace IsWord

variable {word : String}

/-- A word has no subscript. -/
theorem underscore_not_mem (h : IsWord word) : '_' ∉ word.toList := by
  have hsets : ∀ s ∈ (Pattern.atLeastOne Lexer.letter).heads ++ (Pattern.atLeastOne Lexer.letter).tails,
      s.contains '_' = false := by
    decide
  have hwithin := h.letters.within
  intro hmem
  obtain ⟨s, hs, hsc⟩ : ∃ s ∈ (Pattern.atLeastOne Lexer.letter).heads ++ (Pattern.atLeastOne Lexer.letter).tails,
      s.contains '_' = true := by
    cases hl : word.toList with
    | nil =>
      rw [hl] at hmem
      cases hmem
    | cons c cs =>
      rw [hl] at hmem hwithin
      rcases List.mem_cons.mp hmem with rfl | hmem
      · obtain ⟨s, hs, hsc⟩ := hwithin.head _ rfl
        exact ⟨s, List.mem_append_left _ hs, hsc⟩
      · obtain ⟨s, hs, hsc⟩ := hwithin.tail _ hmem
        exact ⟨s, List.mem_append_right _ hs, hsc⟩
  rw [hsets s hs] at hsc
  cases hsc

theorem ne_subscript (h : IsWord word) (x u : String) : word ≠ x ++ "_" ++ u := by
  rintro rfl
  exact h.underscore_not_mem (by simp)

theorem ne_empty (h : IsWord word) : word ≠ "" := by
  rintro rfl
  exact absurd h.letters (by decide)

end IsWord

mutual

/-- Nothing is changed. -/
theorem Expr.translate_same (e : Expr) : e.translate ⟨id, .variable, fun _ => True⟩ = e := by
  cases e <;> simp [Expr.translate, translate_same, translateList_same]

theorem Expr.translateList_same (es : List Expr) : translateList ⟨id, .variable, fun _ => True⟩ es = es := by
  cases es <;> simp [translateList, translate_same, translateList_same]

end

namespace Translation

/-- The translation that changes nothing. -/
def same : Translation := ⟨id, .variable, fun _ => True⟩

theorem payload_same (payload : Payload) : payload.map (Expr.translate same) = payload := by
  have htrees : ∀ es : List Expr, es.map (Expr.translate same) = es := fun es => by
    rw [← Expr.translateList_eq, same, Expr.translateList_same]
  cases payload with
  | nothing => rfl
  | expr e => exact congrArg Payload.expr (Expr.translate_same e)
  | args es => exact congrArg Payload.args (htrees es)

theorem sound_same (s : Setting) : same.Sound s where
  resolve _ := Expr.translate_same _
  subscript _ _ := Expr.translate_same _
  function? _ := rfl
  set? _ := rfl
  literal _ := rfl
  exponent {e} h := by rwa [same, Expr.translate_same]
  factorial {e} h := by rwa [same, Expr.translate_same]

theorem twin_same (t : Token) : same.Twin t t := ⟨rfl, rfl, (payload_same _).symm, trivial⟩

/-- The translation that puts a tree in the place of a variable. No word may stand for the variable. -/
def replacing (s : Setting) (name : String) (e : Expr) : Translation :=
  ⟨id, fun x => if x = name then e else .variable x, fun word => name ∉ s.variablesOf word⟩

theorem sound_replacing {s : Setting} (hs : s.limits = {}) {name : String} (hn : IsWord name) (e : Expr) :
    (replacing s name e).Sound s := by
  have hvariable : ∀ {x}, x ≠ name → (Expr.variable x).translate (replacing s name e) = .variable x := fun h => if_neg h
  have hnames : ∀ {w}, (replacing s name e).Fine w → ∀ subscript,
      (s.resolve w subscript).translate (replacing s name e) = s.resolve w subscript := by
    intro w hw subscript
    refine Setting.resolve_translate (fun a ha => ?_) fun hl => hvariable ?_
    · rcases Setting.mem_letters ha with ha | ⟨x, u, -, rfl⟩
      · rcases Setting.mem_letters_none ha with ⟨x, rfl⟩ | ⟨x, v, rfl⟩
        · refine hvariable fun hx => hw (List.mem_filterMap.mpr ⟨_, ha, ?_⟩)
          rw [hx]
          rfl
        · rfl
      · exact hvariable (hn.ne_subscript x u).symm
    · rw [Setting.eq_empty_of_letters hl]
      exact hn.ne_empty.symm
  exact
    { resolve := fun hw => hnames hw none
      subscript := fun hw _ => hnames hw _
      function? := fun _ => rfl
      set? := fun _ => rfl
      literal := fun _ => rfl
      exponent := fun _ v _ => by rw [hs]; exact Limits.checkExponent_unlimited v
      factorial := fun _ v _ => by rw [hs]; exact Limits.checkFactorial_unlimited v }

end Translation

end Formula
