import Mathlib.Data.List.Basic

/-- A sequence each of whose terms is computed from three terms before it: the one `order` back, the one after
that, and the one `lag` after that. -/
structure Lagged (α : Type*) where
  order : Nat
  lag : Nat
  step : α → α → α → α
  lag_pos : 0 < lag
  lag_lt : lag < order

namespace Lagged

/-- The terms at hand, one cell for each. -/
abbrev Window (α : Type*) (n : Nat) := Vector α n

variable {α : Type*} {r : Lagged α} {x y : Nat → α}

theorem toList_setIfInBounds {n : Nat} (values : Window α n) (i : Nat) (a : α) :
    (values.setIfInBounds i a).toList = values.toList.set i a := by
  simp [Vector.setIfInBounds, Vector.toList]

theorem one_lt (r : Lagged α) : 1 < r.order := Nat.lt_of_le_of_lt r.lag_pos r.lag_lt

/-- The sequence that starts with `first`. -/
def term (r : Lagged α) (first : Nat → α) (k : Nat) : α :=
  if k < r.order then first k
  else r.step (r.term first (k - r.order + r.lag)) (r.term first (k - r.order)) (r.term first (k - r.order + 1))
termination_by k
decreasing_by
  all_goals
    have := r.lag_lt
    have := r.one_lt
    omega

/-- Each term from `order` on is computed from those before it. -/
def Continues (r : Lagged α) (x : Nat → α) : Prop :=
  ∀ k, x (k + r.order) = r.step (x (k + r.lag)) (x k) (x (k + 1))

theorem term_lt {first : Nat → α} {k : Nat} (h : k < r.order) : r.term first k = first k := by
  rw [term, if_pos h]

theorem term_continues (r : Lagged α) (first : Nat → α) : r.Continues (r.term first) := by
  intro k
  rw [term, if_neg (by omega), Nat.add_sub_cancel]

theorem continues_shift (h : r.Continues x) (n : Nat) : r.Continues fun k => x (n + k) := by
  intro k
  have := h (n + k)
  simpa only [Nat.add_assoc] using this

/-- Two such sequences that begin alike go on alike. -/
theorem continues_unique (hx : r.Continues x) (hy : r.Continues y) (h : ∀ k < r.order, x k = y k) (k : Nat) :
    x k = y k := by
  induction k using Nat.strongRecOn with
  | _ k ih =>
    by_cases hk : k < r.order
    · exact h k hk
    · have hlag := r.lag_lt
      have hone := r.one_lt
      have hstep : ∀ z, r.Continues z → z k =
          r.step (z (k - r.order + r.lag)) (z (k - r.order)) (z (k - r.order + 1)) := by
        intro z hz
        have := hz (k - r.order)
        rwa [Nat.sub_add_cancel (by omega)] at this
      rw [hstep x hx, hstep y hy, ih _ (by omega), ih _ (by omega), ih _ (by omega)]

/-- Cells in which the first `i` of `order` terms have made room for the terms `order` later. -/
structure Renewed (r : Lagged α) (x : Nat → α) (i : Nat) (cells : List α) : Prop where
  length : cells.length = r.order
  done : ∀ j < i, cells[j]? = some (x (j + r.order))
  left : ∀ j, i ≤ j → j < r.order → cells[j]? = some (x j)

/-- Every term renewed, the cells hold the next `order` terms. -/
theorem Renewed.next {cells : List α} (h : r.Renewed x r.order cells) :
    r.Renewed (fun k => x (r.order + k)) 0 cells := by
  refine ⟨h.length, by omega, ?_⟩
  intro j _ hj
  rw [h.done j hj, Nat.add_comm]

/-- Where the term `lag` after the one at `i` is found: in its own cell, or in one that was renewed. -/
theorem Renewed.lagged {cells : List α} {i : Nat} (h : r.Renewed x i cells) :
    (i + r.lag < r.order → cells[i + r.lag]? = some (x (i + r.lag))) ∧
      (r.order ≤ i + r.lag → i < r.order → cells[i + r.lag - r.order]? = some (x (i + r.lag))) := by
  have := r.lag_lt
  constructor
  · intro hi
    exact h.left _ (by omega) hi
  · intro hi _
    rw [h.done _ (by omega), Nat.sub_add_cancel hi]

/-- Where the term after the one at `i` is found. -/
theorem Renewed.after {cells : List α} {i : Nat} (h : r.Renewed x i cells) :
    (i + 1 < r.order → cells[i + 1]? = some (x (i + 1))) ∧
      (i + 1 = r.order → 0 < i → cells[0]? = some (x (i + 1))) := by
  constructor
  · intro hi
    exact h.left _ (by omega) hi
  · intro hi hpos
    rw [h.done 0 hpos, Nat.zero_add, hi]

/-- One cell more is renewed by writing the term that the recurrence gives. -/
theorem Renewed.set {cells : List α} {i : Nat} (hx : r.Continues x) (h : r.Renewed x i cells) (hi : i < r.order) :
    r.Renewed x (i + 1) (cells.set i (r.step (x (i + r.lag)) (x i) (x (i + 1)))) := by
  refine ⟨by rw [List.length_set, h.length], ?_, ?_⟩
  · intro j hj
    rw [← hx i]
    by_cases hji : j = i
    · subst hji
      rw [List.getElem?_set_self (by rw [h.length]; exact hi)]
    · rw [List.getElem?_set_ne (by omega), h.done j (by omega)]
  · intro j hij hj
    rw [List.getElem?_set_ne (by omega), h.left j (by omega) hj]

end Lagged
