import Mathlib.Data.List.Nodup
import Mathlib.Data.List.Perm.Subperm
import Formula.LR.Construction
import Formula.Proofs.LR.Reach

/-!
# Loops that come to their end

A loop ends if each of its steps either makes a number smaller or is the last one (`exists_iterate`), and a row of steps
of which none fails leads to its end (`exists_foldlM`). What such a step has to keep is left open in both.

Lists in increasing order of their keys are known by their members (`Ordered.eq`), and inserting keeps the order.

For loops that go on until nothing changes, `Grows` says that what is known grows and that the mark of a change can be
trusted: if it is not set, nothing has changed; if it was set, something is known that was not known before
(`Grows.missing_lt`). What a round without a change has looked at was in order before (`exists_round`).
-/

namespace Formula.LR

/-! ## Steps -/

/-- A loop ends if each step makes a number smaller or is the last. -/
theorem exists_iterate {σ ρ : Type} {step : σ → Option (σ ⊕ ρ)} (P : σ → Prop) (left : σ → Nat) {Q : ρ → Prop}
    (hstep : ∀ s, P s → (∃ s', step s = some (.inl s') ∧ P s' ∧ left s' < left s) ∨ ∃ r, step s = some (.inr r) ∧ Q r)
    {rounds : Nat} {s : σ} (hs : P s) (hr : left s < rounds) : ∃ r, iterate step rounds s = some r ∧ Q r := by
  induction rounds generalizing s with
  | zero => omega
  | succ rounds ih =>
    rw [iterate]
    rcases hstep s hs with ⟨s', he, hs', hlt⟩ | ⟨r, he, hq⟩
    · rw [he]
      exact ih hs' (by omega)
    · rw [he]
      exact ⟨r, rfl, hq⟩

/-- If each element leads one further along the row, all of them lead to its end. -/
theorem exists_foldlM {σ α : Type} {f : σ → α → Option σ} (P : List α → σ → Prop) {l : List α}
    (hstep : ∀ done a s, a ∈ l → P done s → ∃ s', f s a = some s' ∧ P (done ++ [a]) s') {s : σ} (hs : P [] s) :
    ∃ s', l.foldlM f s = some s' ∧ P l s' := by
  suffices h : ∀ rest done s, (∀ a ∈ rest, a ∈ l) → P done s → ∃ s', rest.foldlM f s = some s' ∧ P (done ++ rest) s' by
    exact h l [] s (fun _ ha => ha) hs
  intro rest
  induction rest with
  | nil =>
    intro done s _ hs
    exact ⟨s, rfl, by rwa [List.append_nil]⟩
  | cons a rest ih =>
    intro done s hl hs
    obtain ⟨s₁, hf, hs₁⟩ := hstep done a s (hl a List.mem_cons_self) hs
    obtain ⟨s₂, hr, hs₂⟩ := ih (done ++ [a]) s₁ (fun b hb => hl b (List.mem_cons_of_mem a hb)) hs₁
    refine ⟨s₂, ?_, ?_⟩
    · rw [List.foldlM_cons, hf]
      exact hr
    · rwa [List.append_assoc] at hs₂

/-! ## Lists in order -/

theorem Earlier.trans {a b c : Nat × Nat} (hab : Earlier a b) (hbc : Earlier b c) : Earlier a c := by
  unfold Earlier at *
  omega

theorem Earlier.irrefl (a : Nat × Nat) : ¬ Earlier a a := by
  unfold Earlier
  omega

theorem Earlier.of_ne {a b : Nat × Nat} (hne : a ≠ b) (h : ¬ Earlier a b) : Earlier b a := by
  rw [Ne, Prod.ext_iff] at hne
  unfold Earlier at *
  omega

section

variable {α : Type}

/-- The keys of the elements grow. -/
def Ordered (key : α → Nat × Nat) (l : List α) : Prop := l.Pairwise fun a b => Earlier (key a) (key b)

theorem Ordered.nodup {key : α → Nat × Nat} {l : List α} (h : Ordered key l) : l.Nodup := by
  refine List.Pairwise.imp (fun {a b} hab => ?_) h
  rintro rfl
  exact Earlier.irrefl _ hab

/-- Lists in order with the same members are equal. -/
theorem Ordered.eq {key : α → Nat × Nat} {l m : List α} (hl : Ordered key l) (hm : Ordered key m)
    (h : ∀ a, a ∈ l ↔ a ∈ m) : l = m := by
  have hp : l.Perm m := (List.perm_ext_iff_of_nodup hl.nodup hm.nodup).mpr h
  refine hp.eq_of_pairwise (fun a b _ _ hab hba => ?_) hl hm
  exact absurd (hab.trans hba) (Earlier.irrefl _)

variable [DecidableEq α] {key : α → Nat × Nat}

theorem mem_insertBy {a b : α} {l : List α} : b ∈ insertBy key a l ↔ b = a ∨ b ∈ l := by
  induction l with
  | nil => simp [insertBy]
  | cons c l ih =>
    rw [insertBy]
    split
    · rename_i hac
      subst hac
      simp
    · split
      · exact List.mem_cons
      · rw [List.mem_cons, ih, List.mem_cons]
        exact or_left_comm

theorem length_insertBy {a : α} {l : List α} (h : a ∉ l) : (insertBy key a l).length = l.length + 1 := by
  induction l with
  | nil => rfl
  | cons c l ih =>
    rw [List.mem_cons, not_or] at h
    rw [insertBy, if_neg h.1]
    split
    · rfl
    · rw [List.length_cons, ih h.2, List.length_cons]

theorem Ordered.insertBy (hkey : ∀ a b, key a = key b → a = b) {l : List α} (h : Ordered key l) (a : α) :
    Ordered key (insertBy key a l) := by
  induction l with
  | nil => exact List.pairwise_singleton _ _
  | cons c l ih =>
    obtain ⟨hc, hl⟩ := List.pairwise_cons.mp h
    rw [LR.insertBy]
    split
    · exact h
    · rename_i hne
      split
      · rename_i hac
        refine List.pairwise_cons.mpr ⟨fun b hb => ?_, h⟩
        rcases List.mem_cons.mp hb with rfl | hb
        · exact hac
        · exact hac.trans (hc b hb)
      · rename_i hac
        refine List.pairwise_cons.mpr ⟨fun b hb => ?_, ih hl⟩
        rcases mem_insertBy.mp hb with rfl | hb
        · exact .of_ne (fun he => hne (hkey _ _ he)) hac
        · exact hc b hb

end

/-! ## Until nothing changes -/

section

variable {σ φ : Type} (knows : σ → φ → Bool) (changed : σ → Bool) (facts : List φ)

/-- What is known grows, and a change is marked. -/
structure Grows (s s' : σ) : Prop where
  keeps : ∀ x, knows s x = true → knows s' x = true
  marked : changed s' = true → changed s = true ∨ ∃ x ∈ facts, knows s x = false ∧ knows s' x = true
  same : changed s' = false → s' = s

/-- The facts that are not known. -/
def missing (s : σ) : List φ := facts.filter fun x => !knows s x

variable {knows changed facts}

theorem Grows.refl (s : σ) : Grows knows changed facts s s := ⟨fun _ h => h, .inl, fun _ => rfl⟩

theorem Grows.trans {s s' s'' : σ} (h : Grows knows changed facts s s') (h' : Grows knows changed facts s' s'') :
    Grows knows changed facts s s'' := by
  refine ⟨fun x hx => h'.keeps x (h.keeps x hx), fun hc => ?_, fun hc => ?_⟩
  · rcases h'.marked hc with hc | ⟨x, hm, hx, hx'⟩
    · rcases h.marked hc with hc | ⟨x, hm, hx, hx'⟩
      · exact .inl hc
      · exact .inr ⟨x, hm, hx, h'.keeps x hx'⟩
    · refine .inr ⟨x, hm, Bool.eq_false_iff.mpr fun hs => ?_, hx'⟩
      exact Bool.eq_false_iff.mp hx (h.keeps x hs)
  · have he := h'.same hc
    rw [he] at hc ⊢
    exact h.same hc

/-- If a change is marked that was not, fewer facts are missing. -/
theorem Grows.missing_lt {s s' : σ} (h : Grows knows changed facts s s') (hs : changed s = false)
    (hs' : changed s' = true) : (missing knows facts s').length < (missing knows facts s).length := by
  obtain ⟨x, hm, hx, hx'⟩ := (h.marked hs').resolve_left (by rw [hs]; exact Bool.false_ne_true)
  refine length_filter_lt (fun y _ hy => ?_) hm (by rw [hx]; rfl) (by rw [hx']; rfl)
  rw [Bool.not_eq_true'] at hy ⊢
  exact Bool.eq_false_iff.mpr fun hk => Bool.eq_false_iff.mp hy (h.keeps y hk)

/-- A round looks at every element. If nothing is new at its end, nothing was at any of them. -/
theorem exists_round {α : Type} {f : σ → α → Option σ} (P : σ → Prop) (Met : σ → α → Prop) {l : List α}
    (hstep : ∀ a ∈ l, ∀ s, P s → ∃ s', f s a = some s' ∧ P s' ∧ Grows knows changed facts s s' ∧
      (changed s' = false → Met s a)) {s : σ} (hs : P s) :
    ∃ s', l.foldlM f s = some s' ∧ P s' ∧ Grows knows changed facts s s' ∧
      (changed s' = false → ∀ a ∈ l, Met s' a) := by
  obtain ⟨s', hfold, hs', hg, hmet⟩ := exists_foldlM (l := l) (f := f) (s := s)
    (fun done s' => P s' ∧ Grows knows changed facts s s' ∧ (changed s' = false → ∀ a ∈ done, Met s' a))
    (fun done a s₁ ha ⟨hs₁, hg₁, hmet₁⟩ => by
      obtain ⟨s₂, hf, hs₂, hg₂, hmet₂⟩ := hstep a ha s₁ hs₁
      refine ⟨s₂, hf, hs₂, hg₁.trans hg₂, fun hc b hb => ?_⟩
      have hc₁ : changed s₁ = false := hg₂.same hc ▸ hc
      rw [hg₂.same hc]
      rcases List.mem_append.mp hb with hb | hb
      · exact hmet₁ hc₁ b hb
      · rw [List.mem_singleton.mp hb]
        exact hmet₂ hc)
    ⟨hs, .refl s, fun _ a ha => absurd ha List.not_mem_nil⟩
  exact ⟨s', hfold, hs', hg, hmet⟩

end

end Formula.LR
