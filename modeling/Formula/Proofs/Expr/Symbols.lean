import Formula.Expr.Free
import Formula.Proofs.Expr.Normal
import Formula.Proofs.Value.Symbols

/-!
# Evaluation invents no symbols

`Free` says of a tree what `freeSymbols` lists (`mem_freeSymbols`), and counts in the constants that a parameter
shadows. A tree is `Contained` if its constants hold no symbols, if its functions use nothing but their parameters, and
if no definition inside of a binder reaches for the variable that is bound there: a definition keeps its body to itself,
so that a limit around it does not see the variable and is dropped.

The value of a contained tree uses the free symbols of the tree only (`uses_evaluateIn`), through the operations of
`Value.Uses`. In particular no bound variable leaks, whether a big operator or a limit is folded or stays
(`mem_freeSymbols_of_evaluate`).
-/

namespace Formula.Expr

/-! ## Free symbols -/

mutual

/-- The name is free in a tree inside definitions with the given parameters: as a variable, or as a constant that one of
the parameters shadows. -/
def Free (params : List String) (s : String) : Expr → Prop
  | .number .. | .function _ => False
  | .variable name => name = s
  | .constant name _ => name = s ∧ s ∈ params
  | .pos a | .neg a | .factorial a _ | .absolute a | .setInterval _ a | .truth a => a.Free params s
  | .binary _ a b | .power a b _ | .compose a b | .relation _ a b | .interval _ a b _ =>
    a.Free params s ∨ b.Free params s
  | .definition _ ps body => s ∉ ps.filterMap name? ∧ body.Free (ps.filterMap name? ++ params) s
  | .call _ args => FreeList params s args
  | .limit var a b => a.Free params s ∨ s ≠ var ∧ b.Free params s
  | .big _ var a b c => (a.Free params s ∨ b.Free params s) ∨ s ≠ var ∧ c.Free params s

def FreeList (params : List String) (s : String) : List Expr → Prop
  | [] => False
  | e :: es => e.Free params s ∨ FreeList params s es

end

theorem mem_insertName {names : List String} {name s : String} : s ∈ insertName names name ↔ s ∈ names ∨ name = s := by
  unfold insertName
  split
  · rename_i h
    refine ⟨.inl, fun h' => h'.elim id ?_⟩
    rintro rfl
    exact List.contains_iff_mem.mp h
  · rw [List.mem_append, List.mem_singleton, eq_comm]

mutual

/-- What is collected are the names found before and the free ones that are not bound. -/
theorem mem_collectFree {params : List String} {s : String} (hs : s ∉ params) {bound found : List String} :
    (e : Expr) → (s ∈ collectFree bound found e ↔ s ∈ found ∨ s ∉ bound ∧ e.Free params s)
  | .number .. | .function _ => by simp [collectFree, Free]
  | .constant .. => by simp [collectFree, Free, hs]
  | .variable name => by
    rw [collectFree, Free]
    split
    · rename_i h
      refine ⟨.inl, fun h' => h'.resolve_right ?_⟩
      rintro ⟨hb, rfl⟩
      exact hb (List.contains_iff_mem.mp h)
    · rename_i h
      rw [mem_insertName]
      refine or_congr_right ⟨?_, And.right⟩
      rintro rfl
      exact ⟨fun hb => h (List.contains_iff_mem.mpr hb), rfl⟩
  | .pos a | .neg a | .factorial a _ | .absolute a | .setInterval _ a | .truth a => mem_collectFree hs a
  | .binary _ a b | .power a b _ | .compose a b | .relation _ a b | .interval _ a b _ => by
    rw [collectFree, mem_collectFree hs b, mem_collectFree hs a, Free]
    tauto
  | .definition _ ps body => by
    rw [collectFree, Free]
    by_cases hp : s ∈ ps.filterMap name?
    · rw [mem_collectFree hs body, List.mem_append]
      tauto
    · have hout : s ∉ ps.filterMap name? ++ params := by
        rw [List.mem_append]
        tauto
      rw [mem_collectFree hout body, List.mem_append]
      tauto
  | .call _ args => mem_collectFreeList hs args
  | .limit var a b => by
    rw [collectFree, mem_collectFree hs b, mem_collectFree hs a, Free, List.mem_cons]
    tauto
  | .big _ var a b c => by
    rw [collectFree, mem_collectFree hs c, mem_collectFree hs b, mem_collectFree hs a, Free, List.mem_cons]
    tauto

theorem mem_collectFreeList {params : List String} {s : String} (hs : s ∉ params) {bound found : List String} :
    (es : List Expr) → (s ∈ collectFreeList bound found es ↔ s ∈ found ∨ s ∉ bound ∧ FreeList params s es)
  | [] => by simp [collectFreeList, FreeList]
  | e :: es => by
    rw [collectFreeList, mem_collectFreeList hs es, mem_collectFree hs e, FreeList]
    tauto

end

theorem mem_freeSymbols {e : Expr} {s : String} : s ∈ e.freeSymbols ↔ e.Free [] s := by
  rw [freeSymbols, mem_collectFree (List.not_mem_nil)]
  simp

/-! ## Contained trees -/

mutual

/-- Inside definitions with the given parameters and binders of the given names, the constants of the tree hold no
symbols, its functions use their parameters only, and its definitions leave none of the bound names free. -/
def Contained (params bound : List String) : Expr → Prop
  | .number .. | .variable _ => True
  | .constant _ value => value.Uses (fun _ => False) fun _ => False
  | .function f => (Value.function f).Binds fun _ => False
  | .pos a | .neg a | .factorial a _ | .absolute a | .setInterval _ a | .truth a => a.Contained params bound
  | .binary _ a b | .power a b _ | .compose a b | .relation _ a b | .interval _ a b _ =>
    a.Contained params bound ∧ b.Contained params bound
  | .definition name ps body =>
    (∀ s ∈ bound, ¬ (Expr.definition name ps body).Free params s) ∧
      body.Contained (ps.filterMap name? ++ params) (ps.filterMap name? ++ bound)
  | .call f args => (Value.function f).Binds (fun _ => False) ∧ ContainedList params bound args
  | .limit var a b => a.Contained params bound ∧ b.Contained params (var :: bound)
  | .big _ var a b c => (a.Contained params bound ∧ b.Contained params bound) ∧ c.Contained params (var :: bound)

def ContainedList (params bound : List String) : List Expr → Prop
  | [] => True
  | e :: es => e.Contained params bound ∧ ContainedList params bound es

end

/-- The value uses the free symbols of a tree, and its definitions those that are not bound around it. -/
def Inside (free : String → Prop) (bound : List String) (v : Value) : Prop :=
  v.Uses free fun s => s ∉ bound ∧ free s

theorem Inside.mono {free free' : String → Prop} {bound : List String} (h : ∀ s, free s → free' s) {v : Value}
    (hv : Inside free bound v) : Inside free' bound v :=
  Value.Uses.mono h (fun s hs => ⟨hs.1, h s hs.2⟩) hv

namespace Inside

variable {free : String → Prop} {bound : List String} {a b c v : Value}

theorem apply (op : Operator) (ha : Inside free bound a) (hb : Inside free bound b) :
    Inside free bound (op.apply a b) := by
  cases op
  · exact ha.add hb
  · exact ha.add hb.neg
  · exact ha.mul hb
  · exact ha.div hb
  · exact ha.mod hb

/-- What is free in the body of a binder is free outside of it, or is the variable. -/
theorem under {var : String} {body : String → Prop} (hv : Inside body (var :: bound) v)
    (hbody : ∀ s, s ≠ var → body s → free s) : v.Uses (Value.orIs free var) fun s => s ∉ bound ∧ free s := by
  refine Value.Uses.mono (fun s hs => ?_) (fun s hs => ?_) hv
  · by_cases hvar : s = var
    · exact .inr hvar
    · exact .inl (hbody s hvar hs)
  · obtain ⟨hvar, hbound⟩ := not_or.mp (mt List.mem_cons.mpr hs.1)
    exact ⟨hbound, hbody s hvar hs.2⟩

theorem callFunction {f : Function} (hf : (Value.function f).Binds fun s => s ∉ bound ∧ free s) {args : List Value}
    (hargs : ∀ a ∈ args, Inside free bound a) : Gives (Inside free bound) (callFunction f args) := by
  unfold Expr.callFunction
  cases hc : f.call args with
  | error m => exact .error _
  | ok v => exact .ok (Callable.uses_call (fun _ hs => hs.2) hf hargs hc)

theorem applyFunction {f : Function} (hf : (Value.function f).Binds fun s => s ∉ bound ∧ free s)
    (ha : Inside free bound a) : Gives (Inside free bound) (applyFunction f a) := by
  unfold Expr.applyFunction
  split
  · exact .ok (.function (Value.Binds.composed_iff.mpr ⟨hf, ha.binds⟩))
  · exact callFunction hf (List.forall_mem_singleton.mpr ha)

/-- The function that a definition stands for uses what the body does, but for the parameters. -/
theorem defined (name : String) {names : List String} {body : String → Prop} (hv : Inside body (names ++ bound) v)
    (hbody : ∀ s, s ∉ names → body s → s ∉ bound ∧ free s) :
    Inside free bound (.function (.defined name (names.map .symbol) v)) := by
  have hbinds : v.Binds fun s => s ∉ bound ∧ free s :=
    hv.binds.mono fun s hs => hbody s (fun hn => hs.1 (List.mem_append_left _ hn)) hs.2
  refine .function (.intro ?_ (List.forall_mem_singleton.mpr hbinds))
  rintro _ ⟨⟩ d hd s hs
  obtain rfl := List.mem_singleton.mp hd
  by_cases hn : s ∈ names
  · exact .inl (List.mem_map_of_mem hn)
  · exact .inr (hbody s hn (hv.symbols s hs))

end Inside

/-! ## Evaluation -/

mutual

/-- The value of a contained tree uses the free symbols of the tree only. -/
theorem uses_evaluateIn {params bound : List String} :
    (e : Expr) → e.Contained params bound → Gives (Inside (e.Free params ·) bound) (e.evaluateIn params)
  | .number .., _ => .ok (.number _)
  | .variable _, _ => .ok (.symbol rfl)
  | .constant name value, h => by
    refine .ok ?_
    split
    · rename_i hp
      exact .symbol ⟨rfl, List.contains_iff_mem.mp hp⟩
    · exact h.mono (fun _ => False.elim) fun _ => False.elim
  | .function f, h => .ok (.function (h.mono fun _ => False.elim))
  | .pos a, h | .truth a, h => uses_evaluateIn a h
  | .neg a, h => .bind (uses_evaluateIn a h) fun _ ha => .ok ha.neg
  | .absolute a, h => .bind (uses_evaluateIn a h) fun _ ha => .ok ha.abs
  | .setInterval set a, h => .bind (uses_evaluateIn a h) fun _ ha => .ok (.restrict (.set set) ha)
  | .factorial a _, h => by
    refine .bind (uses_evaluateIn a h) fun _ ha => ?_
    exact .bind (.check _) fun _ _ => .ok ha.fact
  | .binary op a b, ⟨ha, hb⟩ => by
    refine .bind (uses_evaluateIn a ha) fun _ ha => .bind (uses_evaluateIn b hb) fun _ hb => .ok ?_
    exact .apply op (ha.mono fun _ => .inl) (hb.mono fun _ => .inr)
  | .relation op a b, ⟨ha, hb⟩ => by
    refine .bind (uses_evaluateIn a ha) fun _ ha => .bind (uses_evaluateIn b hb) fun _ hb => .ok ?_
    exact .relate (ha.mono fun _ => .inl) (hb.mono fun _ => .inr) op
  | .interval _ a b _, ⟨ha, hb⟩ => by
    refine .bind (uses_evaluateIn a ha) fun _ ha => .bind (uses_evaluateIn b hb) fun _ hb => .ok ?_
    exact .between (ha.mono fun _ => .inl) (hb.mono fun _ => .inr) _ _
  | .power a b _, ⟨ha, hb⟩ => by
    refine .bind (uses_evaluateIn a ha) fun _ ha => .bind (uses_evaluateIn b hb) fun _ hb => ?_
    exact .bind (.check _) fun _ _ => .ok (.pow (ha.mono fun _ => .inl) (hb.mono fun _ => .inr))
  | .compose f a, ⟨hf, ha⟩ => by
    refine .bind (uses_evaluateIn f hf) fun v hv => ?_
    cases v with
    | function g =>
      refine .bind (uses_evaluateIn a ha) fun _ ha => ?_
      exact Inside.applyFunction (hv.mono fun _ => .inl).binds (ha.mono fun _ => .inr)
    | _ => exact .error _
  | .definition name ps body, ⟨hbound, hbody⟩ => by
    intro v hv
    obtain ⟨names, hnames, hv⟩ := Except.bind_eq_ok_iff.mp hv
    obtain rfl := parameterNames_eq_filterMap hnames
    obtain ⟨w, hw, hv⟩ := Except.bind_eq_ok_iff.mp hv
    cases hv
    refine (uses_evaluateIn body hbody w hw).defined name fun s hs hfree => ?_
    exact ⟨fun hb => hbound s hb ⟨hs, hfree⟩, hs, hfree⟩
  | .call f args, ⟨hf, hargs⟩ => by
    refine .bind (uses_evaluateList args hargs) fun _ hargs => ?_
    exact Inside.callFunction (hf.mono fun _ => False.elim) hargs
  | .limit var a b, ⟨ha, hb⟩ => by
    refine .bind (uses_evaluateIn a ha) fun _ ha => .bind (uses_evaluateIn b hb) fun _ hb => .ok ?_
    exact .limitOf (ha.mono fun _ => .inl) (hb.under fun _ hvar hs => .inr ⟨hvar, hs⟩)
  | .big op var a b c, ⟨⟨ha, hb⟩, hc⟩ => by
    refine .bind (uses_evaluateIn a ha) fun _ ha => .bind (uses_evaluateIn b hb) fun _ hb => ?_
    refine .bind (uses_evaluateIn c hc) fun _ hc => .ok ?_
    exact .big op (ha.mono fun _ hs => .inl (.inl hs)) (hb.mono fun _ hs => .inl (.inr hs))
      (hc.under fun _ hvar hs => .inr ⟨hvar, hs⟩)

theorem uses_evaluateList {params bound : List String} :
    (es : List Expr) → ContainedList params bound es →
      Gives (fun vs => ∀ v ∈ vs, Inside (FreeList params · es) bound v) (evaluateList params es)
  | [], _ => .ok fun _ hv => nomatch hv
  | e :: es, ⟨h, hs⟩ => by
    refine .bind (uses_evaluateIn e h) fun _ hv => .bind (uses_evaluateList es hs) fun _ hvs => .ok ?_
    exact List.forall_mem_cons.mpr ⟨hv.mono fun _ => .inl, fun v hv => (hvs v hv).mono fun _ => .inr⟩

end

/-- A symbol of the value of a contained tree is a free symbol of the tree. -/
theorem mem_freeSymbols_of_evaluate {e : Expr} (h : e.Contained [] []) {v : Value} (hv : e.evaluate = .ok v) {s : String}
    (hs : v.containsSymbol s = true) : s ∈ e.freeSymbols :=
  mem_freeSymbols.mpr ((uses_evaluateIn e h v hv).symbols s hs)

/-- The sum of the squares of `kx` from one to three, with the square as a function of `u`. -/
def squares : Expr :=
  .big .sum "k" (.number "1" (.ofInt 1)) (.number "3" (.ofInt 3))
    (.call Value.square [.binary .mul (.variable "k") (.variable "x")])

theorem contained_squares : squares.Contained [] [] := by
  have hsquare : (Value.function Value.square).Binds fun _ => False := by
    have hbody : (Value.power (.symbol "u") (.int 2)).Uses (· = "u") fun _ => False :=
      .power (.symbol rfl) (.number _)
    refine .intro ?_ (List.forall_mem_singleton.mpr hbody.binds)
    rintro _ ⟨⟩ d hd s hs
    obtain rfl := List.mem_singleton.mp hd
    obtain rfl := hbody.symbols s hs
    exact .inl List.mem_cons_self
  exact ⟨⟨trivial, trivial⟩, hsquare, ⟨trivial, trivial⟩, trivial⟩

/-- The sum folds to three squares with `x` in them, and neither the variable of the sum nor the parameter is left. -/
theorem mem_freeSymbols_of_evaluate_squares :
    squares.Contained [] [] ∧ ∃ v, squares.evaluate = .ok v ∧ v.containsSymbol "k" = false ∧
      v.containsSymbol "u" = false ∧ v.containsSymbol "x" = true ∧ "x" ∈ squares.freeSymbols :=
  ⟨contained_squares, _, rfl, rfl, rfl, rfl, mem_freeSymbols_of_evaluate contained_squares rfl rfl⟩

end Formula.Expr
