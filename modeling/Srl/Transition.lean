import Mathlib.Data.List.Basic

namespace Transition

variable {σ α : Type*} {step : σ → α → Option σ} {ok : σ → α → Prop} {P Q : σ → Prop} {s s' : σ}
  {as bs : List α}

/-- The state after a list of events, or `none` when one of them is refused. -/
def run (step : σ → α → Option σ) (s : σ) : List α → Option σ
  | [] => some s
  | a :: as => (step s a).bind fun s' => run step s' as

/-- The states of a run, with its first and its last one. -/
def visited (step : σ → α → Option σ) (s : σ) : List α → List σ
  | [] => [s]
  | a :: as => s :: (step s a).elim [] fun s' => visited step s' as

/-- Every event of the run meets `ok` in the state in which it happens. -/
def Along (step : σ → α → Option σ) (ok : σ → α → Prop) (s : σ) : List α → Prop
  | [] => True
  | a :: as => ok s a ∧ ∀ s', step s a = some s' → Along step ok s' as

theorem run_append : run step s (as ++ bs) = (run step s as).bind fun s' => run step s' bs := by
  induction as generalizing s with
  | nil => rfl
  | cons a as ih =>
    simp only [List.cons_append, run, Option.bind_assoc]
    congr 1
    funext s'
    exact ih

theorem along_append (h : Along step ok s (as ++ bs)) :
    Along step ok s as ∧ ∀ s', run step s as = some s' → Along step ok s' bs := by
  induction as generalizing s with
  | nil => exact ⟨trivial, fun s' hs' => by cases hs'; exact h⟩
  | cons a as ih =>
    refine ⟨⟨h.1, fun s' hs' => (ih (h.2 s' hs')).1⟩, fun s' hs' => ?_⟩
    obtain ⟨s₁, hs₁, hrun⟩ := Option.bind_eq_some_iff.mp hs'
    exact (ih (h.2 s₁ hs₁)).2 s' hrun

theorem Along.and {ok' : σ → α → Prop} (h : Along step ok s as) (h' : Along step ok' s as) :
    Along step (fun s a => ok s a ∧ ok' s a) s as := by
  induction as generalizing s with
  | nil => trivial
  | cons a as ih => exact ⟨⟨h.1, h'.1⟩, fun s' hs' => ih (h.2 s' hs') (h'.2 s' hs')⟩

theorem along_of_forall (h : ∀ s a, ok s a) : Along step ok s as := by
  induction as generalizing s with
  | nil => trivial
  | cons a as ih => exact ⟨h s a, fun s' _ => ih⟩

theorem along_of_visited (h : ∀ t ∈ visited step s as, P t) : Along step (fun s _ => P s) s as := by
  induction as generalizing s with
  | nil => trivial
  | cons a as ih =>
    refine ⟨h s (by simp [visited]), fun s' hs' => ih fun t ht => h t ?_⟩
    simp only [visited, hs', Option.elim_some, List.mem_cons]
    exact Or.inr ht

/-- What every step under `ok` preserves holds at the end of every run whose steps meet `ok`. -/
theorem along_invariant (hstep : ∀ s a s', P s → ok s a → step s a = some s' → P s') (hs : P s)
    (hok : Along step ok s as) (hrun : run step s as = some s') : P s' := by
  induction as generalizing s with
  | nil =>
    cases hrun
    exact hs
  | cons a as ih =>
    obtain ⟨s₁, hs₁, hrun⟩ := Option.bind_eq_some_iff.mp hrun
    exact ih (hstep s a s₁ hs hok.1 hs₁) (hok.2 s₁ hs₁) hrun

/-- What every step preserves holds at the end of every run. -/
theorem run_invariant (hstep : ∀ s a s', P s → step s a = some s' → P s') (hs : P s)
    (hrun : run step s as = some s') : P s' := by
  induction as generalizing s with
  | nil =>
    cases hrun
    exact hs
  | cons a as ih =>
    obtain ⟨s₁, hs₁, hrun⟩ := Option.bind_eq_some_iff.mp hrun
    exact ih (hstep s a s₁ hs hs₁) hrun

/-- What every step that breaks `ok` brings about, and every step preserves, holds at the end of a run whose steps do
not all meet `ok`. -/
theorem of_not_along (hP : ∀ s a s', P s → step s a = some s' → P s') (hQ : ∀ s a s', Q s → step s a = some s' → Q s')
    (hbreak : ∀ s a s', P s → ¬ok s a → step s a = some s' → Q s') (hs : P s) (hrun : run step s as = some s')
    (h : ¬Along step ok s as) : Q s' := by
  induction as generalizing s with
  | nil => exact absurd trivial h
  | cons a as ih =>
    obtain ⟨s₁, hs₁, hrun⟩ := Option.bind_eq_some_iff.mp hrun
    by_cases hok : ok s a
    · refine ih (hP s a s₁ hs hs₁) hrun fun hrest => h ⟨hok, fun s₂ hs₂ => ?_⟩
      cases hs₁.symm.trans hs₂
      exact hrest
    · exact run_invariant hQ (hbreak s a s₁ hs hok hs₁) hrun

/-- Whether the events of a run meet `ok` is found out by running them. -/
instance decidableAlong (step : σ → α → Option σ) (ok : σ → α → Prop) [∀ s a, Decidable (ok s a)] :
    (s : σ) → (as : List α) → Decidable (Along step ok s as)
  | _, [] => .isTrue trivial
  | s, a :: as =>
    match h : step s a with
    | none => decidable_of_iff (ok s a) ⟨fun ha => ⟨ha, fun s' hs' => by cases h.symm.trans hs'⟩, And.left⟩
    | some s₁ =>
      have := decidableAlong step ok s₁ as
      decidable_of_iff (ok s a ∧ Along step ok s₁ as)
        ⟨fun ha => ⟨ha.1, fun s' hs' => Option.some.inj (h.symm.trans hs') ▸ ha.2⟩, fun ha => ⟨ha.1, ha.2 s₁ h⟩⟩

end Transition
