import Formula.Proofs.Expr.Progress
import Formula.Proofs.Expr.Registering
import Formula.Proofs.Expr.Retrace
import Formula.Proofs.Expr.Translation
import Formula.Proofs.Expr.Unbind

/-!
# Parameters shadow constants

A parameter of a definition shadows a constant of its name. Two settings that differ in the constant only make the same
trees but for that (`Setting.Makes.of_sameBut`), so that their parsers go side by side (`Setting.retraces_sameBut`), and
where the name is a parameter the trees have the same value. So a text with the parameter defines the same function with
both (`Setting.define_shadowed`).

One thing is not shadowed: powers and factorials are checked while the text is parsed, where the name still stands for
the constant. A limit may therefore refuse a definition because of a constant that its function would not use
(`Setting.define_refused_for_constant`).
-/

namespace Formula

/-! ## The same but for a constant -/

/-- The refusals of a ceiling on exponents or factorials. -/
inductive Limits.Refuses (limits : Limits) : Error → Prop where
  | exponent {x : Float} (h : limits.exponent < x.abs) : Refuses limits (.exponentTooLarge x limits.exponent)
  | factorial {x : Float} (h : limits.factorial < x.abs) : Refuses limits (.factorialTooLarge x limits.factorial)

namespace Limits

theorem checkExponent_cases (limits : Limits) (v : Value) :
    checkExponent limits.exponent v = .ok () ∨
      ∃ error, limits.Refuses error ∧ checkExponent limits.exponent v = .error error := by
  unfold checkExponent
  cases v.toFloat? with
  | none => exact .inl rfl
  | some x =>
    by_cases h : limits.exponent < x.abs
    · exact .inr ⟨_, .exponent h, if_pos h⟩
    · exact .inl (if_neg h)

theorem checkFactorial_cases (limits : Limits) (v : Value) :
    checkFactorial limits.factorial v = .ok () ∨
      ∃ error, limits.Refuses error ∧ checkFactorial limits.factorial v = .error error := by
  unfold checkFactorial
  cases v.toFloat? with
  | none => exact .inl rfl
  | some x =>
    by_cases h : limits.factorial < x.abs
    · exact .inr ⟨_, .factorial h, if_pos h⟩
    · exact .inl (if_neg h)

/-- Limits that are not set refuse nothing. -/
theorem not_refuses {limits : Limits} (hexponent : limits.exponent = 1 / 0) (hfactorial : limits.factorial = 1 / 0)
    (error : Error) : ¬ limits.Refuses error := by
  rintro (h | h)
  · exact not_infinity_lt _ (hexponent ▸ h)
  · exact not_infinity_lt _ (hfactorial ▸ h)

end Limits

namespace Expr

/-- A power is made or refused. -/
theorem checkedPower_cases (base exponent : Expr) (limits : Limits) :
    checkedPower base exponent limits.exponent = .ok (.power base exponent limits.exponent) ∨
      ∃ error, limits.Refuses error ∧ checkedPower base exponent limits.exponent = .error error := by
  unfold checkedPower
  cases exponent.evaluate with
  | error => exact .inl rfl
  | ok v =>
    rcases limits.checkExponent_cases v with h | ⟨error, hrefuses, h⟩
    · exact .inl (by simp only [h]; rfl)
    · exact .inr ⟨error, hrefuses, by simp only [h]; rfl⟩

/-- A factorial is made or refused. -/
theorem checkedFactorial_cases (operand : Expr) (limits : Limits) :
    checkedFactorial operand limits.factorial = .ok (.factorial operand limits.factorial) ∨
      ∃ error, limits.Refuses error ∧ checkedFactorial operand limits.factorial = .error error := by
  unfold checkedFactorial
  cases operand.evaluate with
  | error => exact .inl rfl
  | ok v =>
    rcases limits.checkFactorial_cases v with h | ⟨error, hrefuses, h⟩
    · exact .inl (by simp only [h]; rfl)
    · exact .inr ⟨error, hrefuses, by simp only [h]; rfl⟩

end Expr

/-- Two tokens that carry the same trees but for what a name stands for. -/
structure Token.SameBut (p : String) (t t' : Token) : Prop where
  symbol : t'.symbol = t.symbol
  lexeme : t'.lexeme = t.lexeme
  payload : t'.payload.map (Expr.unbind p) = t.payload.map (Expr.unbind p)

theorem Token.SameBut.refl (p : String) (t : Token) : t.SameBut p t := ⟨rfl, rfl, rfl⟩

namespace Phrase

variable {p : String} {ts ts' : List Token} {below : Option Symbol} {i : Nat}

theorem exists_token (h : List.Forall₂ (Token.SameBut p) ts ts') {t : Token} (ht : ts[i]? = some t) :
    ∃ t', ts'[i]? = some t' ∧ t.SameBut p t' := getElem?_of_forall₂ h ht

theorem exists_tree (h : List.Forall₂ (Token.SameBut p) ts ts') {e : Expr} (he : Tree ⟨ts, below⟩ i e) :
    ∃ e', Tree ⟨ts', below⟩ i e' ∧ e'.unbind p = e.unbind p := by
  obtain ⟨t, ht, hpayload⟩ := he
  obtain ⟨t', ht', hsame⟩ := exists_token h ht
  have hmap := hsame.payload
  rw [hpayload] at hmap
  cases hp : t'.payload with
  | expr e' =>
    rw [hp] at hmap
    exact ⟨e', ⟨t', ht', hp⟩, Payload.expr.inj hmap⟩
  | _ =>
    rw [hp] at hmap
    cases hmap

theorem exists_trees (h : List.Forall₂ (Token.SameBut p) ts ts') {es : List Expr} (hes : Trees ⟨ts, below⟩ i es) :
    ∃ es', Trees ⟨ts', below⟩ i es' ∧ es'.map (Expr.unbind p) = es.map (Expr.unbind p) := by
  obtain ⟨t, ht, hpayload⟩ := hes
  obtain ⟨t', ht', hsame⟩ := exists_token h ht
  have hmap := hsame.payload
  rw [hpayload] at hmap
  cases hp : t'.payload with
  | args es' =>
    rw [hp] at hmap
    exact ⟨es', ⟨t', ht', hp⟩, Payload.args.inj hmap⟩
  | _ =>
    rw [hp] at hmap
    cases hmap

theorem text_of_sameBut (h : List.Forall₂ (Token.SameBut p) ts ts') {text : String} (ht : Text ⟨ts, below⟩ i text) :
    Text ⟨ts', below⟩ i text := by
  obtain ⟨t, ht, rfl⟩ := ht
  obtain ⟨t', ht', hsame⟩ := exists_token h ht
  exact ⟨t', ht', hsame.lexeme⟩

end Phrase

namespace Setting

variable {p : String} {s s' : Setting}

/-! ## Names -/

section

variable (hp : p.length = 1) (hc : s.catalog.AgreeBut (.constant p) s'.catalog)

include hc

theorem letter_unbind (name : String) (subscript : Option String) :
    (s'.letter name subscript).unbind p = (s.letter name subscript).unbind p := by
  cases subscript with
  | some _ => rfl
  | none =>
    by_cases hname : name = p
    · subst hname
      have hletter : ∀ s : Setting, (s.letter name none).unbind name = .variable name := by
        intro s
        unfold letter
        dsimp only
        split
        · rw [Expr.unbind, if_pos rfl]
        · rfl
      rw [hletter, hletter]
    · have hentry : Catalog.Entry.constant p ≠ .constant name := fun h => hname (Catalog.Entry.constant.inj h).symm
      rw [letter_congr (hc.constant name hentry)]

include hp

/-- A name of one letter is one name, whether or not it is a constant. -/
theorem isWhole_eq (name : String) : s'.isWhole name = s.isWhole name := by
  by_cases hname : name = p
  · subst hname
    rw [isWhole, isWhole, beq_iff_eq.mpr hp, Bool.true_or, Bool.true_or, Bool.true_or, Bool.true_or, Bool.true_or,
      Bool.true_or]
  · have hentry : Catalog.Entry.constant p ≠ .constant name := fun h => hname (Catalog.Entry.constant.inj h).symm
    rw [isWhole, isWhole, hc.constant name hentry, hc.symbol name (by rintro ⟨⟩)]

theorem letters_unbind (name : String) (subscript : Option String) :
    (s'.letters name subscript).map (Expr.unbind p) = (s.letters name subscript).map (Expr.unbind p) := by
  unfold letters
  rw [isWhole_eq hp hc]
  split
  · rw [List.map_singleton, List.map_singleton, letter_unbind hc]
  · dsimp only
    split
    · rfl
    · rw [List.map_append, List.map_append, List.map_singleton, List.map_singleton, letter_unbind hc, List.map_map,
        List.map_map]
      exact congrArg (· ++ _) (List.map_congr_left fun single _ => letter_unbind hc single none)

omit hp hc in
theorem productOf_unbind (es : List Expr) :
    (productOf es).map (Expr.unbind p) = productOf (es.map (Expr.unbind p)) := by
  cases es with
  | nil => rfl
  | cons e es =>
    show some ((es.foldl (.binary .mul) e).unbind p) =
      some ((es.map (Expr.unbind p)).foldl (.binary .mul) (e.unbind p))
    refine congrArg some ?_
    induction es generalizing e with
    | nil => rfl
    | cons f es ih => exact ih (.binary .mul e f)

/-- What a name stands for is the same but for the constant. -/
theorem resolve_unbind (name : String) (subscript : Option String) :
    (s'.resolve name subscript).unbind p = (s.resolve name subscript).unbind p := by
  have hproduct : (productOf (s'.letters name subscript)).map (Expr.unbind p) =
      (productOf (s.letters name subscript)).map (Expr.unbind p) := by
    rw [productOf_unbind, productOf_unbind, letters_unbind hp hc]
  have hget : ∀ e : Option Expr,
      (e.getD (.variable name)).unbind p = (e.map (Expr.unbind p)).getD (.variable name) := by
    intro e
    cases e <;> rfl
  rw [resolve, resolve, hget, hget, hproduct]

end

/-! ## Reductions -/

section

variable (hp : p.length = 1) (hc : s.catalog.AgreeBut (.constant p) s'.catalog) (hlimits : s.limits = s'.limits)

include hlimits in
theorem Literal.of_sameBut {t t' : Token} (ht : t.SameBut p t') {e : Expr} (h : s.Literal t e) : s'.Literal t' e := by
  obtain ⟨v, hv, hcheck, rfl⟩ := h
  exact ⟨v, by rw [ht.lexeme, hv], by rw [ht.lexeme, ← hlimits, hcheck], by rw [ht.lexeme]⟩

include hp hc hlimits

theorem Leading.of_sameBut {subscript subscript' : Option Token}
    (ht : Option.Rel (Token.SameBut p) subscript subscript') {lead : List Expr} (h : s.Leading subscript lead) :
    ∃ lead', s'.Leading subscript' lead' ∧ lead'.map (Expr.unbind p) = lead.map (Expr.unbind p) := by
  cases h with
  | none =>
    cases ht
    exact ⟨[], .none, rfl⟩
  | number hsymbol he =>
    cases ht with
    | some ht => exact ⟨_, .number (ht.symbol.trans hsymbol) (he.of_sameBut hlimits ht), rfl⟩
  | name hsymbol =>
    cases ht with
    | some ht =>
      refine ⟨_, .name (by rwa [ht.symbol]), ?_⟩
      rw [List.map_singleton, List.map_singleton, ht.lexeme, resolve_unbind hp hc]

theorem Calls.of_sameBut {name : String} {subscript subscript' : Option Token}
    (ht : Option.Rel (Token.SameBut p) subscript subscript') {args args' : List Expr}
    (hargs : args'.map (Expr.unbind p) = args.map (Expr.unbind p)) {e : Expr} (h : s.Calls name subscript args e) :
    ∃ e', s'.Calls name subscript' args' e' ∧ e'.unbind p = e.unbind p := by
  have hfunction : s'.catalog.function? name = s.catalog.function? name := (hc.function name (by rintro ⟨⟩)).symm
  cases h with
  | @function f lead hf hl ha =>
    obtain ⟨lead', hl', hlead⟩ := hl.of_sameBut hp hc hlimits ht
    have hall : (lead' ++ args').map (Expr.unbind p) = (lead ++ args).map (Expr.unbind p) := by
      rw [List.map_append, List.map_append, hlead, hargs]
    have hlength : (lead' ++ args').length = (lead ++ args).length := by
      simpa only [List.length_map] using congrArg List.length hall
    refine ⟨_, .function (hfunction.trans hf) hl' (by rwa [hlength]), ?_⟩
    rw [Expr.unbind, Expr.unbind, Expr.unbindList_eq, Expr.unbindList_eq, hall]
  | product hf ha =>
    subst ha
    obtain ⟨arg', hargs', harg⟩ := List.map_eq_singleton_iff.mp hargs
    have hlexeme : subscript'.map (·.lexeme) = subscript.map (·.lexeme) := by
      cases ht with
      | none => rfl
      | some ht => exact congrArg some ht.lexeme
    refine ⟨_, .product (hfunction.trans hf) hargs', ?_⟩
    rw [Expr.unbind, Expr.unbind, harg, hlexeme, resolve_unbind hp hc]

/-- What a rule makes with one setting, it makes with the other but for the constant, or a ceiling refuses it. -/
theorem Makes.of_sameBut {ts ts' : List Token} {below : Option Symbol} {r : Rule} {payload : Payload}
    (hts : List.Forall₂ (Token.SameBut p) ts ts') (h : s.Makes ⟨ts, below⟩ r payload) :
    (∃ payload', s'.Makes ⟨ts', below⟩ r payload' ∧ payload'.map (Expr.unbind p) = payload.map (Expr.unbind p)) ∨
      ∃ error, s'.limits.Refuses error ∧ ∀ names, s'.build ⟨ts', below⟩ r names = (.error error, names) := by
  have htree {i : Nat} {e : Expr} (he : Phrase.Tree ⟨ts, below⟩ i e) :
      ∃ e', Phrase.Tree ⟨ts', below⟩ i e' ∧ e'.unbind p = e.unbind p := Phrase.exists_tree hts he
  have htrees {i : Nat} {es : List Expr} (hes : Phrase.Trees ⟨ts, below⟩ i es) :
      ∃ es', Phrase.Trees ⟨ts', below⟩ i es' ∧ es'.map (Expr.unbind p) = es.map (Expr.unbind p) :=
    Phrase.exists_trees hts hes
  have htext {i : Nat} {text : String} (ht : Phrase.Text ⟨ts, below⟩ i text) : Phrase.Text ⟨ts', below⟩ i text :=
    Phrase.text_of_sameBut hts ht
  have hfunction (name : String) : s'.catalog.function? name = s.catalog.function? name :=
    (hc.function name (by rintro ⟨⟩)).symm
  cases h with
  | hand hr he =>
    obtain ⟨e', he, hsame⟩ := htree he
    exact .inl ⟨_, .hand hr he, congrArg Payload.expr hsame⟩
  | relation hr ha hb =>
    obtain ⟨a', ha, hsame⟩ := htree ha
    obtain ⟨b', hb, hsame'⟩ := htree hb
    exact .inl ⟨_, .relation hr ha hb, by simp only [Payload.map, Expr.unbind, hsame, hsame']⟩
  | interval hr ha hb =>
    obtain ⟨a', ha, hsame⟩ := htree ha
    obtain ⟨b', hb, hsame'⟩ := htree hb
    exact .inl ⟨_, .interval hr ha hb, by simp only [Payload.map, Expr.unbind, hsame, hsame']⟩
  | setInterval hn hs he =>
    obtain ⟨e', he, hsame⟩ := htree he
    exact .inl ⟨_, .setInterval (htext hn) hs he, by simp only [Payload.map, Expr.unbind, hsame]⟩
  | definition hn hps hb =>
    obtain ⟨ps', hps, hsame⟩ := htrees hps
    obtain ⟨b', hb, hsame'⟩ := htree hb
    exact .inl ⟨_, .definition (htext hn) hps hb, by
      simp only [Payload.map, Expr.unbind, Expr.unbindList_eq, hsame, hsame']⟩
  | definitionWithoutParameters hn hb =>
    obtain ⟨b', hb, hsame⟩ := htree hb
    exact .inl ⟨_, .definitionWithoutParameters (htext hn) hb, by simp only [Payload.map, Expr.unbind, hsame]⟩
  | firstArgument he =>
    obtain ⟨e', he, hsame⟩ := htree he
    exact .inl ⟨_, .firstArgument he, by simp only [Payload.map, List.map_singleton, hsame]⟩
  | nextArgument hs he =>
    obtain ⟨es', hs, hsame⟩ := htrees hs
    obtain ⟨e', he, hsame'⟩ := htree he
    exact .inl ⟨_, .nextArgument hs he, by simp only [Payload.map, List.map_append, List.map_singleton, hsame, hsame']⟩
  | operation hr ha hb =>
    obtain ⟨a', ha, hsame⟩ := htree ha
    obtain ⟨b', hb, hsame'⟩ := htree hb
    exact .inl ⟨_, .operation hr ha hb, by simp only [Payload.map, Expr.unbind, hsame, hsame']⟩
  | pos hr he =>
    obtain ⟨e', he, hsame⟩ := htree he
    exact .inl ⟨_, .pos hr he, by simp only [Payload.map, Expr.unbind, hsame]⟩
  | neg hr he =>
    obtain ⟨e', he, hsame⟩ := htree he
    exact .inl ⟨_, .neg hr he, by simp only [Payload.map, Expr.unbind, hsame]⟩
  | power ha hb _ =>
    -- the exponent is evaluated with the constant, and the ceiling may be above one of the values only
    obtain ⟨a', ha, hsame⟩ := htree ha
    obtain ⟨b', hb, hsame'⟩ := htree hb
    rcases Expr.checkedPower_cases a' b' s'.limits with hmade | ⟨error, hrefuses, herror⟩
    · refine .inl ⟨_, .power ha hb (Expr.checkedPower_eq_ok.mp hmade).1, ?_⟩
      simp only [Payload.map, Expr.unbind, hsame, hsame', hlimits]
    · refine .inr ⟨error, hrefuses, fun names => ?_⟩
      rw [build, Build.bind_ok (Phrase.expr_eq_ok.mpr ⟨ha, rfl⟩), Build.bind_ok (Phrase.expr_eq_ok.mpr ⟨hb, rfl⟩)]
      exact Build.bind_error (congrArg (·, names) herror)
  | factorial ha _ =>
    obtain ⟨a', ha, hsame⟩ := htree ha
    rcases Expr.checkedFactorial_cases a' s'.limits with hmade | ⟨error, hrefuses, herror⟩
    · refine .inl ⟨_, .factorial ha (Expr.checkedFactorial_eq_ok.mp hmade).1, ?_⟩
      simp only [Payload.map, Expr.unbind, hsame, hlimits]
    · refine .inr ⟨error, hrefuses, fun names => ?_⟩
      rw [build, Build.bind_ok (Phrase.expr_eq_ok.mpr ⟨ha, rfl⟩)]
      exact Build.bind_error (congrArg (·, names) herror)
  | number hr ht he =>
    obtain ⟨t', ht', hsame⟩ := Phrase.exists_token hts ht
    exact .inl ⟨_, .number hr ht' (he.of_sameBut hlimits hsame), rfl⟩
  | bars he =>
    obtain ⟨e', he, hsame⟩ := htree he
    exact .inl ⟨_, .bars he, by simp only [Payload.map, Expr.unbind, hsame]⟩
  | function hn hb hf => exact .inl ⟨_, .function (htext hn) hb ((hfunction _).trans hf), rfl⟩
  | identifier hr hb hn =>
    exact .inl ⟨_, .identifier hr (fun hr hb' => (hfunction _).trans (hb hr hb')) (htext hn),
      congrArg Payload.expr (resolve_unbind hp hc _ _)⟩
  | subscript hr hn hs =>
    exact .inl ⟨_, .subscript hr (htext hn) (htext hs), congrArg Payload.expr (resolve_unbind hp hc _ _)⟩
  | call hn ha he =>
    obtain ⟨args', ha, hsame⟩ := htrees ha
    obtain ⟨e', he, hsame'⟩ := he.of_sameBut hp hc hlimits .none hsame
    exact .inl ⟨_, .call (htext hn) ha he, congrArg Payload.expr hsame'⟩
  | callWithoutArguments hn he =>
    obtain ⟨e', he, hsame⟩ := he.of_sameBut hp hc hlimits .none rfl
    exact .inl ⟨_, .callWithoutArguments (htext hn) he, congrArg Payload.expr hsame⟩
  | subscriptCall hr hn hs ha he =>
    obtain ⟨args', ha, hsame⟩ := htrees ha
    obtain ⟨t', ht', hsub⟩ := Phrase.exists_token hts hs
    obtain ⟨e', he, hsame'⟩ := he.of_sameBut hp hc hlimits (.some hsub) hsame
    exact .inl ⟨_, .subscriptCall hr (htext hn) ht' ha he, congrArg Payload.expr hsame'⟩
  | composition hn hf he =>
    obtain ⟨e', he, hsame⟩ := htree he
    exact .inl ⟨_, .composition (htext hn) ((hfunction _).trans hf) he, by simp only [Payload.map, Expr.unbind, hsame]⟩
  | limit ht ha hb =>
    obtain ⟨a', ha, hsame⟩ := htree ha
    obtain ⟨b', hb, hsame'⟩ := htree hb
    exact .inl ⟨_, .limit (htext ht) ha hb, by simp only [Payload.map, Expr.unbind, hsame, hsame']⟩
  | big hr hv ha hb hcbody =>
    obtain ⟨a', ha, hsame⟩ := htree ha
    obtain ⟨b', hb, hsame'⟩ := htree hb
    obtain ⟨c', hcbody, hsame''⟩ := htree hcbody
    exact .inl ⟨_, .big hr (htext hv) ha hb hcbody, by simp only [Payload.map, Expr.unbind, hsame, hsame', hsame'']⟩

/-! ## Definitions -/

/-- The second parser does what the first one does, as far as the ceilings let it. -/
theorem retraces_sameBut : s.Retraces (Token.SameBut p) s'.limits.Refuses s' where
  symbol h := h.symbol
  refl := .refl p
  makes hts h := by
    refine (h.of_sameBut hp hc hlimits hts).imp_left fun ⟨payload', hmakes, hsame⟩ => ?_
    exact ⟨payload', hmakes, fun _ _ _ => ⟨rfl, rfl, hsame⟩⟩

/-- A definition is read as the same tree but for the constant, or a ceiling refuses it. -/
theorem parse_definition_of_sameBut {text : String} {e : Expr} (h : (s.parse .definition text).result = .ok e) :
    (∃ e', (s'.parse .definition text).result = .ok e' ∧ e'.unbind p = e.unbind p) ∨
      ∃ error, s'.limits.Refuses error ∧ (s'.parse .definition text).result = .error error := by
  obtain ⟨name, ps, body, he⟩ := parse_definition h
  obtain ⟨hscan, token, a, hrun, ha, hclassify⟩ := parse_eq_ok.mp h
  obtain rfl := Expr.eq_of_classify_definition (hclassify.symm.trans he)
  rcases (retraces_sameBut hp hc hlimits).run hrun [] with ⟨token', hrun', hsame⟩ | ⟨error, hrefuses, hrun'⟩
  · have hpayload := hsame.payload
    rw [ha] at hpayload
    cases ha' : token'.payload with
    | expr a' =>
      rw [ha'] at hpayload
      have hunbind : a'.unbind p = _ := Payload.expr.inj hpayload
      obtain ⟨ps', body', rfl, -, -⟩ := Expr.exists_definition_of_unbind hunbind
      exact .inl ⟨_, parse_eq_ok.mpr ⟨hscan, token', _, hrun', ha', rfl⟩, by rw [he]; exact hunbind⟩
    | _ =>
      rw [ha'] at hpayload
      cases hpayload
  · refine .inr ⟨error, hrefuses, ?_⟩
    unfold parse
    dsimp only
    rw [hscan]
    show (do return (← exprOf (← (s'.run .definition (tokenize text).tokens []).result)).classify) = _
    rw [hrun']
    rfl

end

/-- A parameter shadows a constant of its name. If two catalogs differ in the constant of a letter only, with the same
limits, and a text defines with the one a function that has the letter for a parameter, then it defines the same
function with the other, unless a ceiling on exponents or factorials refuses the text there. Where these are not
limited, nothing does. -/
theorem define_shadowed {p : String} (hp : p.length = 1) {s s' : Setting} (hlimits : s.limits = s'.limits)
    (hc : s.catalog.AgreeBut (.constant p) s'.catalog) {text name : String} {params : List Value} {body : Value}
    {t : Setting} (hdefine : s.define text = .ok (.defined name params body, t)) (hparam : .symbol p ∈ params) :
    ((∃ t', s'.define text = .ok (.defined name params body, t') ∧ t.limits = t'.limits ∧
        t.catalog.AgreeBut (.constant p) t'.catalog) ∨
      ∃ error, s'.define text = .error error ∧ s'.limits.Refuses error) ∧
    (s.limits.exponent = 1 / 0 → s.limits.factorial = 1 / 0 →
      ∃ t', s'.define text = .ok (.defined name params body, t')) := by
  obtain ⟨root, hparse, hvalue, rfl⟩ := define_eq_ok.mp hdefine
  obtain ⟨defined, ps, e, hroot⟩ := parse_definition hparse
  rcases parse_definition_of_sameBut hp hc hlimits hparse with ⟨root', hparse', hsame⟩ | ⟨error, hrefuses, hparse'⟩
  · have hvalue' := Expr.evaluate_of_unbind hroot hsame hvalue hparam
    have hdefine' := define_eq_ok.mpr ⟨root', hparse', hvalue', rfl⟩
    exact ⟨.inl ⟨_, hdefine', hlimits, hc.insertFunction _⟩, fun _ _ => ⟨_, hdefine'⟩⟩
  · refine ⟨.inr ⟨error, ?_, hrefuses⟩, fun hexponent hfactorial => ?_⟩
    · unfold define
      rw [hparse']
      cases hrefuses <;> rfl
    · rw [hlimits] at hexponent hfactorial
      exact absurd hrefuses (Limits.not_refuses hexponent hfactorial error)

/-- What was defined is a function of the one parameter. -/
def takes (p : String) : Except Error (Function × Setting) → Bool
  | .ok (.defined _ [.symbol q] _, _) => q == p
  | _ => false

theorem exists_of_takes {p : String} {x : Except Error (Function × Setting)} (h : takes p x = true) :
    ∃ name body t, x = .ok (.defined name [.symbol p] body, t) := by
  unfold takes at h
  split at h
  · obtain rfl := beq_iff_eq.mp h
    exact ⟨_, _, _, rfl⟩
  · cases h

/-- An exponent was too large. -/
def overflows : Except Error (Function × Setting) → Bool
  | .error (.exponentTooLarge ..) => true
  | _ => false

theorem exists_of_overflows {x : Except Error (Function × Setting)} (h : overflows x = true) :
    ∃ value ceiling, x = .error (.exponentTooLarge value ceiling) := by
  unfold overflows at h
  split at h
  · exact ⟨_, _, rfl⟩
  · cases h

/-- Without a limit on exponents `2^p` is defined with the parameter `p`, below a limit of ten as well, but there not
with a constant `p` of a thousand. -/
theorem define_power :
    let limited : Setting := { limits := { exponent := 10 } }
    takes "p" (Setting.define {} "f(p) = 2^p") = true ∧ takes "p" (limited.define "f(p) = 2^p") = true ∧
      overflows ((limited.withConstant "p" 1000).define "f(p) = 2^p") = true := by
  decide +kernel

/-- A letter that is a constant with the one catalog, and a parameter with both. -/
theorem define_shadowed_power :
    let s : Setting := {}
    let s' : Setting := s.withConstant "p" 1000
    "p".length = 1 ∧ s.limits = s'.limits ∧ s.catalog.AgreeBut (.constant "p") s'.catalog ∧
      ∃ name params body t t', s.define "f(p) = 2^p" = .ok (.defined name params body, t) ∧ .symbol "p" ∈ params ∧
        s'.define "f(p) = 2^p" = .ok (.defined name params body, t') := by
  intro s s'
  have hlength : "p".length = 1 := by decide
  have hlimits : s.limits = s'.limits := rfl
  have hc : s.catalog.AgreeBut (.constant "p") s'.catalog := Catalog.agreeBut_insertConstant _ _ _
  have hparam : Value.symbol "p" ∈ [Value.symbol "p"] := List.mem_singleton_self _
  obtain ⟨name, body, t, hdefine⟩ := exists_of_takes define_power.1
  obtain ⟨-, hunlimited⟩ := define_shadowed hlength hlimits hc hdefine hparam
  obtain ⟨t', hdefine'⟩ := hunlimited rfl rfl
  exact ⟨hlength, hlimits, hc, name, _, body, t, t', hdefine, hparam, hdefine'⟩

/-- A constant that the parameter shadows makes the difference between a function and a refusal. -/
theorem define_refused_for_constant :
    let s : Setting := { limits := { exponent := 10 } }
    let s' : Setting := s.withConstant "p" 1000
    s.limits = s'.limits ∧ s.catalog.AgreeBut (.constant "p") s'.catalog ∧
      (∃ name body t, s.define "f(p) = 2^p" = .ok (.defined name [.symbol "p"] body, t)) ∧
      ∃ value ceiling, s'.define "f(p) = 2^p" = .error (.exponentTooLarge value ceiling) := by
  intro s s'
  refine ⟨rfl, Catalog.agreeBut_insertConstant _ _ _, ?_, ?_⟩
  · exact exists_of_takes define_power.2.1
  · exact exists_of_overflows define_power.2.2

end Setting

end Formula
