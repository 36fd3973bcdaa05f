import Formula.Proofs.LR.Construction
import Formula.Proofs.LR.Reductions
import Formula.Proofs.LR.Safety

/-!
# Symbols that the grammar does not have

The rows of the tables stand one behind the other, and a look-up goes by the place in the whole. A symbol with a number
that the grammar does not have is beyond the row of the state, and is found in a row further on, as many rows as the
number of symbols goes into its own (`lookup_foreign`), or, if that is behind the last word, in one from the first on.
So it is refused if there is no such row, or if the row has no action in that place, and only then.
`foreign_refused_iff` says this of the tables of every grammar that passes the checks, and of every run; in
`run_sums_foreign` such a symbol is taken for a number.
-/

namespace Formula.LR

/-! ## Rows one behind the other -/

/-- In rows of one length, the place tells the row and the column. -/
theorem getElem?_flatten {α : Type} {rows : List (List α)} {columns : Nat} (hpos : 0 < columns)
    (h : ∀ row ∈ rows, row.length = columns) (place : Nat) :
    rows.flatten[place]? = rows[place / columns]?.bind (·[place % columns]?) := by
  induction rows generalizing place with
  | nil => rfl
  | cons row rows ih =>
    have hrow := h row List.mem_cons_self
    rw [List.flatten_cons]
    by_cases hlt : place < columns
    · rw [Nat.div_eq_of_lt hlt, Nat.mod_eq_of_lt hlt, List.getElem?_append_left (hrow ▸ hlt)]
      rfl
    · have hle : columns ≤ place := Nat.le_of_not_lt hlt
      rw [Nat.div_eq_sub_div hpos hle, Nat.mod_eq_sub_mod hle, List.getElem?_append_right (hrow ▸ hle), hrow,
        ih fun r hr => h r (List.mem_cons_of_mem row hr)]
      rfl

theorem length_of_mem_tableActions {rows : List (List Resolution)} {columns : Nat}
    (h : ∀ row ∈ rows, row.length = columns) (n : Nat) : ∀ row ∈ tableActions n rows, row.length = columns := by
  induction rows generalizing n with
  | nil => nofun
  | cons row rows ih =>
    rw [tableActions, List.forall_mem_cons, Grammar.length_rowActions]
    exact ⟨h row List.mem_cons_self, ih (fun r hr => h r (List.mem_cons_of_mem row hr)) _⟩

variable {g : Grammar}

/-- What is looked up stands in the flat table, at its place. -/
theorem lookup_eq_flat (hg : 0 < g.symbols) (n x : Nat) :
    (Tables.build g).lookup n x = (Tables.build g).flat.actions[(Tables.build g).place n x]?.getD .error := by
  have hrows : ∀ row ∈ (Tables.build g).rows.toList.map Array.toList, row.length = g.symbols := by
    rw [Grammar.rows_toList]
    refine length_of_mem_tableActions (fun row hrow => ?_) 0
    obtain ⟨q, -, rfl⟩ := List.mem_map.mp hrow
    exact Grammar.length_resolutions q
  rw [Tables.flat, getElem?_flatten hg hrows, List.getElem?_map, Option.bind_map, Tables.lookup]
  simp only [Function.comp_def, Array.getElem?_toList]
  rfl

/-! ## Another row -/

/-- The place for a symbol that the grammar does not have is a word. -/
theorem place_of_le {n x : Nat} (hx : g.symbols ≤ x) :
    (Tables.build g).place n x = (n * g.symbols + x) % 2 ^ 64 := by
  rw [Tables.place, show (Tables.build g).grammar = g from rfl, if_neg (Nat.not_lt.mpr hx)]
  rfl

/-- A symbol goes as many rows further as the number of symbols goes into it. -/
theorem lookup_foreign (hg : 0 < g.symbols) {n x : Nat} (hx : g.symbols ≤ x) (hfit : n * g.symbols + x < 2 ^ 64) :
    (Tables.build g).lookup n x = (Tables.build g).lookup (n + x / g.symbols) (x % g.symbols) := by
  rw [lookup_wrap _ hg, place_of_le hx, Nat.mod_eq_of_lt hfit, show (Tables.build g).grammar.symbols = g.symbols from rfl,
    Nat.mul_comm, Nat.mul_add_div hg, Nat.mul_add_mod]

/-- Beyond the last state there are only errors. -/
theorem lookup_eq_error_of_le {m y : Nat} (hm : (Tables.build g).states.length ≤ m) (hy : y < g.symbols) :
    (Tables.build g).lookup m y = .error :=
  lookup_eq_error (List.getElem?_eq_none hm) hy

/-- All states refuse a symbol if none of the places that it goes to has an action. -/
theorem forall_lookup_eq_error_iff (hg : 0 < g.symbols) (x : Nat) :
    (∀ n < (Tables.build g).states.length, (Tables.build g).lookup n x = .error) ↔
      ∀ n < (Tables.build g).states.length, ∀ m < (Tables.build g).states.length, ∀ y < g.symbols,
        (Tables.build g).place n x = m * g.symbols + y → (Tables.build g).lookup m y = .error := by
  have hwrap : ∀ n, (Tables.build g).lookup n x =
      (Tables.build g).lookup ((Tables.build g).place n x / g.symbols) ((Tables.build g).place n x % g.symbols) :=
    fun n => lookup_wrap _ hg n x
  constructor
  · intro h n hn m _ y hy hplace
    have hlookup := h n hn
    rwa [hwrap, hplace, Nat.mul_comm, Nat.mul_add_div hg, Nat.mul_add_mod, Nat.div_eq_of_lt hy, Nat.mod_eq_of_lt hy,
      Nat.add_zero] at hlookup
  · intro h n hn
    rw [hwrap]
    have hy := Nat.mod_lt ((Tables.build g).place n x) hg
    by_cases hm : (Tables.build g).place n x / g.symbols < (Tables.build g).states.length
    · exact h n hn _ hm _ hy (Nat.div_add_mod' ..).symm
    · exact lookup_eq_error_of_le (Nat.le_of_not_lt hm) hy

/-- If no state leads behind the last word, these places are in the rows further on. -/
theorem forall_lookup_eq_error_iff_of_fits (hg : 0 < g.symbols) {x : Nat} (hx : g.symbols ≤ x)
    (hfit : (Tables.build g).states.length * g.symbols + x ≤ 2 ^ 64) :
    (∀ n < (Tables.build g).states.length, (Tables.build g).lookup n x = .error) ↔
      ∀ m < (Tables.build g).states.length, x / g.symbols ≤ m →
        (Tables.build g).lookup m (x % g.symbols) = .error := by
  have hforeign : ∀ n < (Tables.build g).states.length,
      (Tables.build g).lookup n x = (Tables.build g).lookup (n + x / g.symbols) (x % g.symbols) := by
    intro n hn
    have hrow : (n + 1) * g.symbols ≤ (Tables.build g).states.length * g.symbols := Nat.mul_le_mul_right _ hn
    rw [Nat.succ_mul] at hrow
    exact lookup_foreign hg hx (by omega)
  constructor
  · intro h m hm hle
    have hlookup := h (m - x / g.symbols) (Nat.lt_of_le_of_lt (Nat.sub_le ..) hm)
    rwa [hforeign _ (Nat.lt_of_le_of_lt (Nat.sub_le ..) hm), Nat.sub_add_cancel hle] at hlookup
  · intro h n hn
    rw [hforeign n hn]
    by_cases hm : n + x / g.symbols < (Tables.build g).states.length
    · exact h _ hm (Nat.le_add_left _ n)
    · exact lookup_eq_error_of_le (Nat.le_of_not_lt hm) (Nat.mod_lt x hg)

/-! ## Runs -/

variable {τ σ ε : Type}

/-- Where the table has neither a shift, a reduction, acceptance nor a choice, the token is refused. -/
theorem Config.step_unexpected {t : Tables} {s : Semantics τ σ ε} {c : Config τ σ}
    (h : t.lookup c.state (s.symbol c.next) = .error ∨ ∃ n, t.lookup c.state (s.symbol c.next) = .goto n) :
    c.step t s = .stop ⟨.error (s.unexpected c.next), c.stats, c.memo⟩ := by
  unfold step
  rcases h with h | ⟨n, h⟩ <;> rw [h] <;> rfl

/-- What the tables say of a symbol that the grammar does not have is the entry of the flat table at its place, where
places are words. If that is not behind the last word, it is the action of another state, further on, for a symbol of
the grammar. All states refuse the symbol exactly if none of the places it may be taken to has an action. A run that
comes to a token of such a symbol, in a state that refuses it, ends there with the error for this token. -/
theorem foreign_refused_iff (hb : g.build = .ok g) (s : Semantics τ σ ε) {x : Nat} (hx : g.symbols ≤ x) :
    let t := Tables.build g
    let states := t.states.length
    (∀ n, t.lookup n x = t.flat.actions[(n * g.symbols + x) % 2 ^ 64]?.getD .error) ∧
    (∀ n, n * g.symbols + x < 2 ^ 64 →
      n < n + x / g.symbols ∧ t.lookup n x = t.lookup (n + x / g.symbols) (x % g.symbols)) ∧
    ((∀ n < states, t.lookup n x = .error) ↔
      ∀ n < states, ∀ m < states, ∀ y < g.symbols, (n * g.symbols + x) % 2 ^ 64 = m * g.symbols + y →
        t.lookup m y = .error) ∧
    (states * g.symbols + x ≤ 2 ^ 64 →
      ((∀ n < states, t.lookup n x = .error) ↔
        ∀ m < states, x / g.symbols ≤ m → t.lookup m (x % g.symbols) = .error)) ∧
    ∀ fuel goal input memo, ∀ c ∈ historyOf t s fuel goal input memo, s.symbol c.next = x →
      (t.lookup c.state x = .error ∨ ∃ n, t.lookup c.state x = .goto n) →
        (historyOf t s fuel goal input memo).getLast? = some c ∧
          run t s fuel goal input memo = ⟨.error (s.unexpected c.next), c.stats, c.memo⟩ := by
  intro t states
  have hg : 0 < g.symbols :=
    Nat.lt_of_lt_of_le (Grammar.nonterminals_pos_of_build hb) (Grammar.checked_of_build hb).nonterminals_le
  have hrows : 0 < x / g.symbols := Nat.div_pos hx hg
  refine ⟨fun n => ?_, fun n hfit => ⟨Nat.lt_add_of_pos_right hrows, lookup_foreign hg hx hfit⟩, ?_,
    forall_lookup_eq_error_iff_of_fits hg hx, ?_⟩
  · rw [← place_of_le hx]
    exact lookup_eq_flat hg n x
  · simp only [← place_of_le hx]
    exact forall_lookup_eq_error_iff hg x
  · rintro fuel goal input memo c hc rfl hrefused
    exact run_of_stop hc (Config.step_unexpected hrefused)

/-- No state has an action for the goal of sums, and so none has one for the symbol 5. The run ends at it. -/
theorem foreign_refused_sums :
    let t := Tables.build sums
    sums.build = .ok sums ∧ sums.symbols ≤ 5 ∧ (∀ n < 5, t.lookup n 5 = .error) ∧
      (run t (shifter t) 100 0 [2, 5, 3] ()).result = .error none := by
  obtain ⟨-, -, -, hiff, hrun⟩ :=
    foreign_refused_iff (g := sums) rfl (shifter (Tables.build sums)) (x := 5) (by decide)
  have hall : ∀ n < 5, (Tables.build sums).lookup n 5 = .error := (hiff (by decide)).mpr (by decide)
  have hc : ⟨[2, 0], [2], 5, [3], ⟨2, 1, 0, 0⟩, ()⟩ ∈
      historyOf (Tables.build sums) (shifter (Tables.build sums)) 100 0 [2, 5, 3] () :=
    List.mem_of_getElem? (i := 1) (by rfl)
  obtain ⟨-, hresult⟩ := hrun 100 0 [2, 5, 3] () _ hc rfl (.inl (hall 2 (by decide)))
  exact ⟨rfl, by decide, hall, by rw [hresult]; rfl⟩

/-- What goes behind the last word comes to the front of the table, here to the cell of a number in the first row. -/
example : (Tables.build sums).lookup 1 (2 ^ 64 - 3) = .shift 2 := by decide

/-- The symbol 17 is not one of the five of sums. At the start it is looked up in the row of the state behind a sign,
where a number is shifted, and the run takes it for a sum. -/
theorem run_sums_foreign :
    let t := Tables.build sums
    sums.build = .ok sums ∧ sums.symbols ≤ 17 ∧ t.lookup 0 17 = .shift 2 ∧
      (run t (shifter t) 100 0 [17] ()).result = .ok 1 := by
  refine ⟨rfl, by decide, by decide, by rfl⟩

end Formula.LR
