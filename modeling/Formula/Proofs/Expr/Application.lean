import Formula.Proofs.Expr.Exact
import Formula.Proofs.Value.Substitution

/-!
# Calls and evaluation at the arguments

A definition evaluates its body once, with its parameters as symbols, and a call puts the arguments in the value. The
other way is to put the arguments in the body (`Expr.instantiate`) and to evaluate then. The two are not the same:
`2 / x` is folded to `2 * x ^ (-1)`, and at zero the one has a factor that the other has not (`call_at_zero`).

They are the same in meaning where the body is arithmetic and means a rational number at the arguments, and none of the
numbers that are computed on either way is a double (`call_exact`).
-/

namespace Formula.Expr

/-! ## Arguments in a tree -/

/-- The number for a name, or the leaf itself. -/
def leafAt (numbers : List (String × Number)) (name : String) (e : Expr) : Expr :=
  match numbers.find? (·.1 == name) with
  | some (_, n) => .number n.render n
  | none => e

/-- The numbers that remain where names are bound. -/
def withoutNames (names : List String) (numbers : List (String × Number)) : List (String × Number) :=
  numbers.filter fun p => !names.contains p.1

mutual

/-- Puts numbers in the place of the free leaves of names, of variables and of constants. -/
def instantiate (numbers : List (String × Number)) (e : Expr) : Expr :=
  match e with
  | .number literal value => .number literal value
  | .variable name => leafAt numbers name (.variable name)
  | .constant name value => leafAt numbers name (.constant name value)
  | .function f => .function f
  | .pos a => .pos (instantiate numbers a)
  | .neg a => .neg (instantiate numbers a)
  | .factorial a ceiling => .factorial (instantiate numbers a) ceiling
  | .absolute a => .absolute (instantiate numbers a)
  | .binary op a b => .binary op (instantiate numbers a) (instantiate numbers b)
  | .power a b ceiling => .power (instantiate numbers a) (instantiate numbers b) ceiling
  | .compose f a => .compose (instantiate numbers f) (instantiate numbers a)
  | .relation op a b => .relation op (instantiate numbers a) (instantiate numbers b)
  | .interval left a b right => .interval left (instantiate numbers a) (instantiate numbers b) right
  | .setInterval set a => .setInterval set (instantiate numbers a)
  | .definition name ps body => .definition name ps (instantiate (withoutNames (ps.filterMap name?) numbers) body)
  | .call f args => .call f (instantiateList numbers args)
  | .limit target a body =>
    .limit target (instantiate numbers a) (instantiate (withoutNames [target] numbers) body)
  | .big op var a b body =>
    .big op var (instantiate numbers a) (instantiate numbers b) (instantiate (withoutNames [var] numbers) body)
  | .truth a => .truth (instantiate numbers a)
termination_by structural e

/-- Puts numbers in the trees of a row. -/
def instantiateList (numbers : List (String × Number)) : List Expr → List Expr
  | [] => []
  | e :: es => instantiate numbers e :: instantiateList numbers es
termination_by structural es => es

end

/-- What symbols stand for, with the numbers for some. -/
def assign (ρ : String → ℚ) (numbers : List (String × Number)) (name : String) : ℚ :=
  match numbers.find? (·.1 == name) with
  | some (_, n) => n.rational?.getD 0
  | none => ρ name

/-- The numbers are fractions in lowest terms. -/
def Fractions (numbers : List (String × Number)) : Prop :=
  ∀ p ∈ numbers, p.2.isExact = true ∧ p.2.Normal

variable {ρ : String → ℚ} {numbers : List (String × Number)} {e : Expr} {q : ℚ}

theorem is_of_fraction {n : Number} (h : n.isExact = true ∧ n.Normal) : n.Is (n.rational?.getD 0) := by
  cases n with
  | real x => exact Bool.noConfusion h.1
  | ratio a b =>
    have his := Number.is_of_normal h.2
    rw [his.rational?]
    exact his

theorem arithmetic_leafAt (hnumbers : Fractions numbers) (name : String) (he : e.Arithmetic) :
    (leafAt numbers name e).Arithmetic := by
  unfold leafAt
  split
  · rename_i hfind
    exact hnumbers _ (List.mem_of_find?_eq_some hfind)
  · exact he

theorem rational?_leafAt (hnumbers : Fractions numbers) (name : String) :
    (leafAt numbers name (.variable name)).rational? ρ = some (assign ρ numbers name) := by
  unfold leafAt assign
  split
  · rename_i hfind
    exact (is_of_fraction (hnumbers _ (List.mem_of_find?_eq_some hfind))).rational?
  · rfl

/-- An arithmetic tree stays one with numbers for names. -/
theorem arithmetic_instantiate (hnumbers : Fractions numbers) (he : e.Arithmetic) :
    (e.instantiate numbers).Arithmetic := by
  induction e using Arithmetic.induct with
  | case1 literal value => exact he
  | case2 name => exact arithmetic_leafAt hnumbers name trivial
  | case3 a ih | case4 a ih | case6 a ih => exact ih he
  | case5 a ceiling ih => exact ⟨ih he.1, he.2⟩
  | case7 op a b iha ihb => exact ⟨iha he.1, ihb he.2⟩
  | case8 a b ceiling iha ihb => exact ⟨iha he.1, ihb he.2.1, he.2.2⟩
  | case9 e =>
    unfold Arithmetic at he
    split at he <;> simp_all

/-- What the tree means with the numbers in it is what it means where its names stand for them. -/
theorem rational?_instantiate (hnumbers : Fractions numbers) (he : e.Arithmetic) :
    (e.instantiate numbers).rational? ρ = e.rational? (assign ρ numbers) := by
  induction e using Arithmetic.induct with
  | case1 literal value => rfl
  | case2 name => exact rational?_leafAt hnumbers name
  | case3 a ih => exact ih he
  | case4 a ih => exact congrArg _ (ih he)
  | case5 a ceiling ih => simp only [instantiate, rational?, ih he.1]
  | case6 a ih => exact congrArg _ (ih he)
  | case7 op a b iha ihb => simp only [instantiate, rational?, iha he.1, ihb he.2]
  | case8 a b ceiling iha ihb => simp only [instantiate, rational?, iha he.1, ihb he.2.1]
  | case9 e =>
    unfold Arithmetic at he
    split at he <;> simp_all

/-- Parameters shadow constants only, and an arithmetic tree has none. -/
theorem evaluateIn_of_arithmetic (params : List String) (he : e.Arithmetic) : e.evaluateIn params = e.evaluate := by
  unfold evaluate
  induction e using Arithmetic.induct with
  | case1 literal value => rfl
  | case2 name => rfl
  | case3 a ih => exact ih he
  | case4 a ih | case6 a ih => simp only [evaluateIn, ih he]
  | case5 a ceiling ih => simp only [evaluateIn, ih he.1]
  | case7 op a b iha ihb => simp only [evaluateIn, iha he.1, ihb he.2]
  | case8 a b ceiling iha ihb => simp only [evaluateIn, iha he.1, ihb he.2.1]
  | case9 e =>
    unfold Arithmetic at he
    split at he <;> simp_all

/-! ## Calls -/

/-- The numbers as replacements of symbols. -/
def replacements (numbers : List (String × Number)) : List (Value × Value) :=
  numbers.map fun p => (.symbol p.1, .number p.2)

theorem zip_replacements (params : List String) (args : List Number) :
    (params.map Value.symbol).zip (args.map Value.number) = replacements (params.zip args) :=
  List.zip_map ..

theorem targets_replacements : Value.Targets (replacements numbers) := by
  intro p hp
  obtain ⟨p, -, rfl⟩ := List.mem_map.mp hp
  exact ⟨p.1, rfl⟩

theorem instantiates_replacements (hnumbers : Fractions numbers) :
    Value.Instantiates ρ (replacements numbers) (assign ρ numbers) := by
  intro s
  have hreplacement : Value.replacement? (replacements numbers) (.symbol s) =
      (numbers.find? (·.1 == s)).map fun p => .number p.2 := by
    unfold Value.replacement? replacements
    rw [List.find?_map, Option.map_map]
    rfl
  rw [hreplacement]
  unfold assign
  cases hfind : numbers.find? (·.1 == s) with
  | some p =>
    have his := is_of_fraction (hnumbers p (List.mem_of_find?_eq_some hfind))
    exact .inl ⟨_, rfl, Value.reads_number.mpr his⟩
  | none => exact .inr ⟨rfl, rfl⟩

/-- The numbers that a call of a definition computes. -/
def madeByCall : Function → List Value → List Number
  | .defined _ params body, args => Value.Made.replaced (params.zip args) body
  | _, _ => []

theorem parameterNames_variables (name : String) (params : List String) :
    parameterNames name (params.map .variable) = .ok params := by
  induction params with
  | nil => rfl
  | cons p ps ih => simp only [List.map_cons, parameterNames, name?, ih]; rfl

/-- Where a definition has an arithmetic body that means a rational number at the arguments, the call and the evaluation
of the body at the arguments both give it, unless a double is computed on the way. -/
theorem call_exact {name : String} {params : List String} {args : List Number} (hlen : params.length = args.length)
    (hargs : ∀ n ∈ args, n.isExact = true ∧ n.Normal) {body : Expr} (hbody : body.Arithmetic) {f : Function}
    (hf : (definition name (params.map .variable) body).evaluate = .ok (.function f)) {ρ : String → ℚ} {q : ℚ}
    (hq : body.rational? (assign ρ (params.zip args)) = some q)
    (hmade : ∀ n ∈ body.made ++ madeByCall f (args.map .number) ++ (body.instantiate (params.zip args)).made,
      n.isExact = true) :
    ∃ r w, f.call (args.map .number) = .ok r ∧ (body.instantiate (params.zip args)).evaluate = .ok w ∧
      r.rational? ρ = some q ∧ w.rational? ρ = some q ∧ ∀ m n, r = .number m → w = .number n → m = n := by
  have hnumbers : Fractions (params.zip args) := fun p hp => hargs p.2 (List.of_mem_zip hp).2
  obtain ⟨hmade, hinstance⟩ := Value.AllExact.append hmade
  obtain ⟨hmade, hcall⟩ := Value.AllExact.append hmade
  obtain ⟨v, hv, hreads⟩ := evaluate_reads hbody hq hmade
  obtain ⟨w, hw, hwreads⟩ := evaluate_reads (arithmetic_instantiate hnumbers hbody)
    ((rational?_instantiate hnumbers hbody).trans hq) hinstance
  have hdefinition : (definition name (params.map .variable) body).evaluate =
      .ok (.function (.defined name (params.map .symbol) v)) := by
    show (do
      let names ← parameterNames name (params.map .variable)
      let value ← evaluateIn (names ++ []) body
      return Value.function (.defined name (names.map .symbol) value)) = _
    rw [parameterNames_variables]
    show (do
      let value ← evaluateIn (params ++ []) body
      return Value.function (.defined name (params.map .symbol) value)) = _
    rw [evaluateIn_of_arithmetic _ hbody, hv]
    rfl
  rw [hdefinition] at hf
  cases hf
  have harity : Callable.accepts (.defined name (params.map Value.symbol) v) (args.map Value.number).length = true := by
    simp [Callable.accepts, Callable.arity, hlen]
  have hresult : Callable.call (.defined name (params.map .symbol) v) (args.map .number) =
      .ok (v.replaceAll (replacements (params.zip args))) := by
    rw [Callable.call, Callable.checkArity, if_pos harity, zip_replacements]
    rfl
  rw [madeByCall, zip_replacements] at hcall
  have hrreads := Value.reads_replaceAll targets_replacements (instantiates_replacements hnumbers) v q hreads hcall
  refine ⟨_, w, hresult, hw, hrreads.1, hwreads.1, fun m n hm hn => ?_⟩
  rw [hm] at hrreads
  rw [hn] at hwreads
  exact (Value.reads_number.mp hrreads).trans (Value.reads_number.mp hwreads).symm

/-- The tree of `(2 - x) / (x ^ 2) + 3! % 4` as a function is called at `-2/3`. -/
theorem call_sample_exact : ∃ f r w, (definition "f" [.variable "x"] sample).evaluate = .ok (.function f) ∧
    f.call [.number (.ratio (-2) 3)] = .ok r ∧ (sample.instantiate [("x", .ratio (-2) 3)]).evaluate = .ok w ∧
    r.rational? (fun _ => 0) = some 8 ∧ w.rational? (fun _ => 0) = some 8 := by
  have harithmetic : sample.Arithmetic := by
    simp [sample, Arithmetic, Number.ofInt, Number.isExact, Number.Normal]
    decide
  have hargs : ∀ n ∈ [Number.ratio (-2) 3], n.isExact = true ∧ n.Normal := by
    simp [Number.isExact, Number.Normal]
    decide
  obtain ⟨r, w, hr, hw, hrq, hwq, -⟩ := @call_exact "f" ["x"] [.ratio (-2) 3] rfl hargs sample harithmetic _ rfl
    (fun _ => 0) 8 (by decide +kernel) (by decide +kernel)
  exact ⟨_, r, w, rfl, hr, hw, hrq, hwq⟩

/-- `2 / x` at zero: the call multiplies by the inverse of zero, the quotient is the infinity itself. -/
theorem call_at_zero :
    let body : Expr := .binary .div (.number "2" (.ofInt 2)) (.variable "x")
    ∃ f, (definition "f" [.variable "x"] body).evaluate = .ok (.function f) ∧
      f.call [.number .zero] = .ok (.product [.int 2, .constant .complexInfinity]) ∧
      (body.instantiate [("x", .zero)]).evaluate = .ok (.constant .complexInfinity) :=
  ⟨_, rfl, rfl, rfl⟩

end Formula.Expr
