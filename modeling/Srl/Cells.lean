import Mathlib.Data.List.Basic

namespace Srl.Cells

variable {α : Type*}

/-- The cells from `i` on and before `j`. -/
def window (cells : List α) (i j : Nat) : List α := (cells.take j).drop i

/-- `cells` after `data` was copied to the cells from `i` on; what passes the end is lost. -/
def overwrite (cells : List α) (i : Nat) (data : List α) : List α :=
  cells.take i ++ data.take (cells.length - i) ++ cells.drop (i + data.length)

/-- `cells` moved to `n` cells, of which the new ones hold what was there before. -/
def realloc (cells : List α) (n : Nat) (fresh : Nat → α) : List α :=
  cells.take n ++ (List.range (n - cells.length)).map fresh

@[simp] theorem length_window (cells : List α) (i j : Nat) :
    (window cells i j).length = min j cells.length - i := by
  simp [window]

@[simp] theorem window_self (cells : List α) (i : Nat) : window cells i i = [] := by
  simp [window]

@[simp] theorem window_zero (cells : List α) (j : Nat) : window cells 0 j = cells.take j := by
  simp [window]

theorem window_eq_nil {cells : List α} {i j : Nat} (h : j ≤ i) : window cells i j = [] := by
  apply List.drop_eq_nil_of_le
  rw [List.length_take]
  omega

theorem getElem?_window {cells : List α} {i j k : Nat} (h : i + k < j) :
    (window cells i j)[k]? = cells[i + k]? := by
  simp [window, h]

theorem window_append {cells : List α} {i j k : Nat} (hij : i ≤ j) (hjk : j ≤ k) :
    window cells i j ++ window cells j k = window cells i k := by
  simp only [window]
  obtain hj | hj := Nat.le_total j cells.length
  · conv_rhs => rw [← List.take_append_drop j (cells.take k)]
    rw [List.take_take, Nat.min_eq_left hjk, List.drop_append_of_le_length (by simp; omega)]
  · rw [List.take_of_length_le hj, List.take_of_length_le (by omega : cells.length ≤ k),
      List.drop_eq_nil_of_le hj, List.append_nil]

theorem window_succ {cells : List α} {i : Nat} {a : α} (h : cells[i]? = some a) :
    window cells i (i + 1) = [a] := by
  obtain ⟨hi, -⟩ := List.getElem?_eq_some_iff.mp h
  have hl : (cells.take i).length = i := by rw [List.length_take]; omega
  rw [window, List.take_add_one, h, List.drop_left' hl]
  rfl

theorem mem_window {cells : List α} {i j : Nat} {a : α} (h : a ∈ window cells i j) :
    ∃ k, i ≤ k ∧ k < j ∧ cells[k]? = some a := by
  obtain ⟨k, hk⟩ := List.mem_iff_getElem?.mp h
  obtain ⟨hlt, -⟩ := List.getElem?_eq_some_iff.mp hk
  rw [length_window] at hlt
  exact ⟨i + k, by omega, by omega, by rwa [getElem?_window (by omega)] at hk⟩

@[simp] theorem length_overwrite (cells : List α) (i : Nat) (data : List α) :
    (overwrite cells i data).length = cells.length := by
  simp only [overwrite, List.length_append, List.length_take, List.length_drop]
  omega

/-- The cells before the written ones keep what they held. -/
theorem window_overwrite {cells data : List α} {i j k : Nat} (h : j ≤ k) (hk : k ≤ cells.length) :
    window (overwrite cells k data) i j = window cells i j := by
  have hl : j ≤ (cells.take k).length := by rw [List.length_take]; omega
  rw [window, overwrite, List.append_assoc, List.take_append_of_le_length hl, List.take_take,
    Nat.min_eq_left h, window]

/-- The written cells hold the data. -/
theorem window_overwrite_self {cells data : List α} {i : Nat} (h : i + data.length ≤ cells.length) :
    window (overwrite cells i data) i (i + data.length) = data := by
  have hd : data.take (cells.length - i) = data := List.take_of_length_le (by omega)
  have hl : (cells.take i).length = i := by rw [List.length_take]; omega
  rw [window, overwrite, hd, List.take_left' (by simp [hl]), List.drop_left' hl]

@[simp] theorem length_realloc (cells : List α) (n : Nat) (fresh : Nat → α) :
    (realloc cells n fresh).length = n := by
  simp only [realloc, List.length_append, List.length_take, List.length_map, List.length_range]
  omega

theorem window_realloc {cells : List α} {i j n : Nat} (fresh : Nat → α) (hj : j ≤ n)
    (hl : j ≤ cells.length) : window (realloc cells n fresh) i j = window cells i j := by
  have hl : j ≤ (cells.take n).length := by rw [List.length_take]; omega
  rw [window, realloc, List.take_append_of_le_length hl, List.take_take, Nat.min_eq_left hj, window]

theorem realloc_self (cells : List α) (fresh : Nat → α) : realloc cells cells.length fresh = cells := by
  simp [realloc]

theorem overwrite_nil (cells : List α) (i : Nat) : overwrite cells i [] = cells := by
  simp [overwrite]

/-- What is overwritten is as long as the data. -/
theorem overwrite_middle {x y z data : List α} {i : Nat} (hx : x.length = i) (hy : y.length = data.length) :
    overwrite (x ++ (y ++ z)) i data = x ++ (data ++ z) := by
  subst hx
  have htake : data.take ((x ++ (y ++ z)).length - x.length) = data := by
    apply List.take_of_length_le
    simp only [List.length_append]
    omega
  have hdrop : (x ++ (y ++ z)).drop (x.length + data.length) = z := by
    rw [← hy, ← List.append_assoc, ← List.length_append, List.drop_left]
  rw [overwrite, htake, hdrop, List.take_left, List.append_assoc]

theorem window_middle (x y z : List α) : window (x ++ (y ++ z)) x.length (x.length + y.length) = y := by
  rw [window, ← List.append_assoc, ← List.length_append, List.take_left, List.drop_left]

/-- What stands from `pos` on moves to the right by as many cells as `gap` has. -/
theorem overwrite_shift (front gap back : List α) {pos : Nat} (h : pos ≤ front.length) :
    ∃ x, x.length = gap.length ∧
      overwrite (front ++ (gap ++ back)) (pos + gap.length) (window (front ++ (gap ++ back)) pos front.length) =
        front.take pos ++ (x ++ (front.drop pos ++ back)) := by
  have hlen : (front ++ gap).length = front.length + gap.length := List.length_append
  refine ⟨((front ++ gap).take (pos + gap.length)).drop pos, by rw [List.length_drop, List.length_take]; omega, ?_⟩
  have hwindow : window (front ++ (gap ++ back)) pos front.length = front.drop pos := by
    rw [window, List.take_left]
  have hsplit : front ++ (gap ++ back) =
      (front ++ gap).take (pos + gap.length) ++ ((front ++ gap).drop (pos + gap.length) ++ back) := by
    rw [← List.append_assoc, ← List.append_assoc, List.take_append_drop]
  have htake : (front ++ gap).take (pos + gap.length) =
      front.take pos ++ ((front ++ gap).take (pos + gap.length)).drop pos := by
    conv_lhs => rw [← List.take_append_drop pos ((front ++ gap).take (pos + gap.length))]
    rw [List.take_take, Nat.min_eq_left (Nat.le_add_right _ _), List.take_append_of_le_length h]
  have hx : ((front ++ gap).take (pos + gap.length)).length = pos + gap.length := by
    rw [List.length_take]
    omega
  rw [hwindow, hsplit, overwrite_middle hx (by rw [List.length_drop, List.length_drop]; omega)]
  conv_lhs => rw [htake, List.append_assoc]

end Srl.Cells
