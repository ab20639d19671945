import Srl.Vector

namespace Srl

open Cells Session

namespace Vector

variable {α : Type} {v v' : Vector α} {l : List α} {i n : Nat} {a : α} {resize : Nat → Call α Unit}

/-- The list that a vector stores, and what the fields of its array say about each other. -/
structure Stores (v : Vector α) (l : List α) : Prop where
  size_eq : v.size = l.length
  elements : v.cells.take v.size = l
  array_size_eq : v.array_size = v.cells.length
  room : v.array.isSome → v.size < v.array_size

structure Holds (v : Vector α) (l : List α) : Prop extends Stores v l where
  end_eq : v.end_pos = l.length

/-- What a resize comes to: room for one element more than was asked for. -/
structure Resized (v v' : Vector α) (l : List α) (n : Nat) : Prop where
  stores : Stores v' l
  init_size_eq : v'.init_size = v.init_size
  end_pos_eq : v'.end_pos = v.end_pos
  room : n < v'.array_size

namespace Stores

theorem fits (h : Stores v l) : l.length ≤ v.cells.length := by
  have := congrArg List.length h.elements
  rw [List.length_take, h.size_eq] at this
  omega

theorem array_isSome (h : Stores v l) (hl : l ≠ []) : v.array.isSome := by
  have hpos := List.length_pos_of_ne_nil hl
  have hfits := h.fits
  cases ha : v.array with
  | none =>
    rw [cells, ha] at hfits
    exact absurd hfits (by simpa using hl)
  | some cells => rfl

theorem read_eq (h : Stores v l) (ha : l[i]? = some a) : read i v = (.ok a, v) := by
  obtain ⟨hi, -⟩ := List.getElem?_eq_some_iff.mp ha
  have hc : v.cells[i]? = some a := by
    rwa [← h.elements, List.getElem?_take_of_lt (by rw [h.size_eq]; exact hi)] at ha
  unfold read
  rw [get_bind, hc]
  rfl

theorem checked_eq (h : Stores v l) (message : String) (ha : l[i]? = some a) :
    checked message i v = (.ok a, v) := by
  obtain ⟨hi, -⟩ := List.getElem?_eq_some_iff.mp ha
  unfold checked
  rw [get_bind, if_neg (by rw [h.size_eq]; omega)]
  exact h.read_eq ha

theorem checked_throws (h : Stores v l) (message : String) (hi : l.length ≤ i) :
    checked message i v = (.error (indexOutOfBounds message), v) := by
  unfold checked
  rw [get_bind, if_pos (by rw [h.size_eq]; exact hi)]
  rfl

end Stores

theorem Stores.unique {l' : List α} (h : Stores v l) (h' : Stores v l') : l = l' :=
  h.elements.symm.trans h'.elements

theorem write_eq (hi : i < v.cells.length) :
    write i a v = (.ok (), { v with array := some (v.cells.set i a) }) := by
  unfold write
  rw [get_bind, if_pos hi]
  rfl

theorem move_eq {j : Nat} (h : max j i + n ≤ v.cells.length) :
    move j i n v = (.ok (), { v with array := some (overwrite v.cells j (window v.cells i (i + n))) }) := by
  unfold move
  rw [get_bind, if_pos h]
  rfl

theorem Holds.write_spec (h : Holds v l) (hi : i < l.length) :
    ∃ v', write i a v = (.ok (), v') ∧ Holds v' (l.set i a) ∧ v'.init_size = v.init_size := by
  have hfits := h.fits
  refine ⟨_, write_eq (by omega), ⟨⟨?_, ?_, ?_, ?_⟩, ?_⟩, rfl⟩
  · rw [List.length_set, ← h.size_eq]
  · show (v.cells.set i a).take v.size = _
    rw [List.take_set, h.elements]
  · show v.array_size = (v.cells.set i a).length
    rw [List.length_set, h.array_size_eq]
  · intro
    exact h.room (h.array_isSome (List.ne_nil_of_length_pos (by omega)))
  · rw [List.length_set, ← h.end_eq]

theorem Holds.add_spec {l' : List α} (h : Holds v l) (hl : l'.length = l.length) (hfew : l.length + 1 < 2 ^ 32)
    (a : α) (hresize : ∃ v', resize (l.length + 1) v = (.ok (), v') ∧ Resized v v' l' (l.length + 1)) :
    ∃ v', add resize a v = (.ok (), v') ∧ Holds v' (l' ++ [a]) ∧ v'.init_size = v.init_size := by
  obtain ⟨w, hw, hr⟩ := hresize
  have hsize : (v.size + 1) % 2 ^ 32 = l.length + 1 := by
    rw [h.size_eq, Nat.mod_eq_of_lt hfew]
  have hroom : w.size < w.cells.length := by
    have := hr.room
    rw [← hr.stores.array_size_eq, hr.stores.size_eq, hl]
    omega
  unfold add
  rw [get_bind, hsize, bind_ok hw,
    get_bind, bind_ok (write_eq hroom)]
  refine ⟨_, rfl, ⟨⟨?_, ?_, ?_, ?_⟩, ?_⟩, hr.init_size_eq⟩
  · show (w.size + 1) % 2 ^ 32 = _
    rw [hr.stores.size_eq, hl, Nat.mod_eq_of_lt hfew, List.length_append, List.length_singleton, hl]
  · show List.take ((w.size + 1) % 2 ^ 32) (w.cells.set w.size a) = _
    rw [Nat.mod_eq_of_lt (by rw [hr.stores.size_eq, hl]; exact hfew), List.take_add_one, List.take_set,
      hr.stores.elements, List.getElem?_set_self hroom, List.set_eq_of_length_le (by rw [hr.stores.size_eq])]
    rfl
  · show w.array_size = (w.cells.set w.size a).length
    rw [List.length_set, hr.stores.array_size_eq]
  · intro
    show (w.size + 1) % 2 ^ 32 < w.array_size
    rw [hr.stores.size_eq, hl, Nat.mod_eq_of_lt hfew]
    exact hr.room
  · show (w.end_pos + 1) % 2 ^ 32 = _
    rw [hr.end_pos_eq, h.end_eq, Nat.mod_eq_of_lt hfew, List.length_append, List.length_singleton, hl]

/-- The elements behind the index move up by one. -/
theorem take_move {cells : List α} {i size : Nat} (hi : i < size) (hsize : size ≤ cells.length) :
    (overwrite cells i (window cells (i + 1) (i + 1 + (size - (i + 1))))).take (size - 1) =
      (cells.take size).eraseIdx i := by
  have hend : i + 1 + (size - (i + 1)) = size := by omega
  have hlen : (window cells (i + 1) size).length = size - (i + 1) := by
    rw [length_window]
    omega
  have hlast : i + (window cells (i + 1) size).length = size - 1 := by omega
  rw [hend, ← window_zero, ← window_append (Nat.zero_le i) (by omega : i ≤ size - 1),
    window_overwrite (Nat.le_refl i) (by omega), ← hlast, window_overwrite_self (by omega),
    List.eraseIdx_eq_take_drop_succ, List.take_take, Nat.min_eq_left (by omega), window_zero]
  rfl

theorem Holds.removeAt_throws (h : Holds v l) (hi : l.length ≤ i) :
    removeAt resize i v =
      (.error (indexOutOfBounds "index is bigger then the size of the list (removeAt)"), v) := by
  unfold removeAt
  rw [get_bind, if_pos (by rw [h.size_eq]; exact hi)]
  rfl

/-- The vector after the part of `removeAt` that stands before the resize. -/
def removed (v : Vector α) (index : Nat) : Vector α :=
  let v := if index ≠ v.size - 1 then
      { v with array := some (overwrite v.cells index
        (window v.cells (index + 1) (index + 1 + (v.size - (index + 1))))) }
    else v
  { v with size := v.size - 1, end_pos := (v.end_pos + 2 ^ 32 - 1) % 2 ^ 32 }

theorem removeAt_eq (h : Holds v l) (hi : i < l.length) :
    removeAt resize i v =
      (if (v.removed i).init_size < (v.removed i).size then resize (v.removed i).size else pure ()) (v.removed i) := by
  have hfits := h.fits
  have hsize := h.size_eq
  unfold removeAt removed
  rw [get_bind, if_neg (by omega)]
  by_cases hlast : i = v.size - 1
  · rw [if_neg (not_not.mpr hlast), if_neg (not_not.mpr hlast)]
    rfl
  · rw [if_pos hlast, if_pos hlast, bind_ok (move_eq (by omega))]
    rfl

theorem Holds.removed (h : Holds v l) (hfew : l.length < 2 ^ 32) (hi : i < l.length) :
    Holds (v.removed i) (l.eraseIdx i) := by
  have hfits := h.fits
  have hsize := h.size_eq
  have hlen := List.length_eraseIdx_of_lt hi
  have hroom := h.room (h.array_isSome (List.ne_nil_of_length_pos (by omega)))
  have hend : (v.end_pos + 2 ^ 32 - 1) % 2 ^ 32 = l.length - 1 := by
    rw [h.end_eq]
    omega
  unfold Vector.removed
  by_cases hlast : i = v.size - 1
  · rw [if_neg (not_not.mpr hlast)]
    refine ⟨⟨?_, ?_, h.array_size_eq, fun _ => ?_⟩, ?_⟩
    · rw [hlen, ← hsize]
    · show v.cells.take (v.size - 1) = _
      rw [List.eraseIdx_eq_take_drop_succ, List.drop_eq_nil_of_le (by omega), List.append_nil, ← h.elements,
        List.take_take, hlast, Nat.min_eq_left (Nat.sub_le _ _)]
    · exact Nat.lt_of_le_of_lt (Nat.sub_le _ _) hroom
    · rw [hlen, ← hend]
  · rw [if_pos hlast]
    refine ⟨⟨?_, ?_, ?_, fun _ => ?_⟩, ?_⟩
    · rw [hlen, ← hsize]
    · show (overwrite _ _ _).take (v.size - 1) = _
      rw [take_move (by omega) (by omega), h.elements]
    · show v.array_size = (overwrite _ _ _).length
      rw [length_overwrite, h.array_size_eq]
    · exact Nat.lt_of_le_of_lt (Nat.sub_le _ _) hroom
    · rw [hlen, ← hend]

theorem removed_array_size (v : Vector α) (i : Nat) : (v.removed i).array_size = v.array_size := by
  unfold removed
  split <;> rfl

theorem removed_init_size (v : Vector α) (i : Nat) : (v.removed i).init_size = v.init_size := by
  unfold removed
  split <;> rfl

theorem Holds.removeAt_shrinks {l' : List α} (h : Holds v l) (hfew : l.length < 2 ^ 32) (hi : i < l.length)
    (hl : l'.length = l.length - 1) (hinit : v.init_size < l.length - 1)
    (hresize : ∃ v', resize (l.length - 1) (v.removed i) = (.ok (), v') ∧
      Resized (v.removed i) v' l' (l.length - 1)) :
    ∃ v', removeAt resize i v = (.ok (), v') ∧ Holds v' l' ∧ v'.init_size = v.init_size := by
  have hr := h.removed hfew hi
  have hlen := List.length_eraseIdx_of_lt hi
  obtain ⟨v', hv', hres⟩ := hresize
  rw [removeAt_eq h hi, hr.size_eq, hlen, removed_init_size, if_pos hinit]
  refine ⟨v', hv', ⟨hres.stores, ?_⟩, hres.init_size_eq.trans (removed_init_size v i)⟩
  rw [hres.end_pos_eq, hr.end_eq, hlen, hl]

theorem Holds.removeAt_spec (h : Holds v l) (hfew : l.length < 2 ^ 32) (hi : i < l.length)
    (hresize : v.init_size < l.length - 1 →
      ∃ v', resize (l.length - 1) (v.removed i) = (.ok (), v') ∧
        Resized (v.removed i) v' (l.eraseIdx i) (l.length - 1)) :
    ∃ v', removeAt resize i v = (.ok (), v') ∧ Holds v' (l.eraseIdx i) ∧ v'.init_size = v.init_size := by
  have hr := h.removed hfew hi
  have hlen := List.length_eraseIdx_of_lt hi
  by_cases hshrink : v.init_size < l.length - 1
  · exact h.removeAt_shrinks hfew hi hlen hshrink (hresize hshrink)
  · rw [removeAt_eq h hi, hr.size_eq, hlen, removed_init_size, if_neg hshrink]
    exact ⟨_, rfl, hr, removed_init_size v i⟩

section

variable [BEq α]

theorem Holds.positionLoop_eq (h : Holds v l) {fuel i : Nat} (hi : i + fuel = l.length) :
    positionLoop a v.size fuel i v = (.ok (((l.drop i).findIdx? (· == a)).map (i + ·)), v) := by
  induction fuel generalizing i with
  | zero =>
    rw [List.drop_eq_nil_of_le (by omega)]
    rfl
  | succ fuel ih =>
    have hlt : i < l.length := by omega
    rw [positionLoop, if_pos (by rw [h.size_eq]; exact hlt), bind_ok (h.read_eq (List.getElem?_eq_getElem hlt)),
      List.drop_eq_getElem_cons hlt, List.findIdx?_cons]
    by_cases ha : (l[i] == a) = true
    · rw [if_pos ha, if_pos ha]
      rfl
    · rw [if_neg ha, if_neg ha, ih (by omega), Option.map_map]
      congr 3
      funext k
      show i + 1 + k = i + (k + 1)
      omega

variable [LawfulBEq α]

theorem findIdx?_eq (l : List α) (a : α) :
    l.findIdx? (· == a) = if a ∈ l then some (l.idxOf a) else none := by
  rw [List.findIdx?_eq_guard_findIdx_lt, Option.guard]
  by_cases ha : a ∈ l
  · rw [if_pos ha, if_pos (by simpa using ha)]
    rfl
  · rw [if_neg ha, if_neg (by simpa using ha)]

/-- The index that `remove` makes of the position of a value. -/
def position (l : List α) (a : α) : Nat := if a ∈ l then l.idxOf a else 2 ^ 32 - 1

theorem Holds.positionOf_run (h : Holds v l) (a : α) :
    positionOf a v = (.ok (if a ∈ l then (l.idxOf a : Int).bmod (2 ^ 32) else -1), v) := by
  have hloop := h.positionLoop_eq (a := a) (Nat.zero_add l.length)
  rw [List.drop_zero, findIdx?_eq] at hloop
  unfold positionOf
  rw [get_bind]
  rw [← h.size_eq] at hloop
  by_cases ha : a ∈ l
  · rw [if_pos ha, Option.map_some, Nat.zero_add] at hloop
    rw [if_pos ha, bind_ok hloop]
    rfl
  · rw [if_neg ha] at hloop ⊢
    rw [bind_ok hloop]
    rfl

theorem Holds.positionOf_eq (h : Holds v l) (hfew : l.length < 2 ^ 32) (a : α) :
    ∃ p, positionOf a v = (.ok p, v) ∧ (p % 2 ^ 32).toNat = position l a := by
  refine ⟨_, h.positionOf_run a, ?_⟩
  unfold position
  by_cases ha : a ∈ l
  · rw [if_pos ha, if_pos ha]
    have hlt := List.idxOf_lt_length_of_mem ha
    have hmod := @Int.bmod_emod (l.idxOf a : Int) (2 ^ 32)
    omega
  · rw [if_neg ha, if_neg ha]
    rfl

/-- The `int` of a position is not negative in a vector of at most 2³¹ elements. -/
theorem Holds.containsValue_eq (h : Holds v l) (hfew : l.length ≤ 2 ^ 31) (a : α) :
    containsValue a v = (.ok (decide (a ∈ l)), v) := by
  unfold containsValue
  rw [bind_ok (h.positionOf_run a)]
  by_cases ha : a ∈ l
  · have hlt := List.idxOf_lt_length_of_mem ha
    rw [if_pos ha, Int.bmod_eq_of_le (by omega) (by omega), decide_eq_true (Int.natCast_nonneg _), decide_eq_true ha]
    rfl
  · rw [if_neg ha, decide_eq_false ha]
    rfl

theorem Holds.remove_eq (h : Holds v l) (resize : Nat → Call α Unit) (hfew : l.length < 2 ^ 32) (a : α) :
    remove resize a v = removeAt resize (position l a) v := by
  obtain ⟨p, hp, hpos⟩ := h.positionOf_eq hfew a
  unfold remove
  rw [bind_ok hp, hpos]

theorem position_of_mem (h : a ∈ l) : position l a < l.length ∧ l.eraseIdx (position l a) = l.erase a := by
  rw [position, if_pos h]
  exact ⟨List.idxOf_lt_length_of_mem h, (List.erase_eq_eraseIdx_of_idxOf rfl).symm⟩

end

theorem rounded_pos (k : Nat) (hk : k ≤ 32) (hfew : max n v.init_size + 2 ^ k < 2 ^ 32) :
    max n v.init_size < v.rounded n (2 ^ k) := by
  have hmax : (if n < v.init_size then v.init_size else n) = max n v.init_size := by
    split <;> omega
  rw [rounded, hmax]
  exact lt_roundup hk hfew

theorem release_spec (h : Stores v l) :
    v.release.array = none ∧ v.release.array_size = 0 ∧ v.release.init_size = v.init_size := by
  unfold release
  split
  next => exact ⟨rfl, rfl, rfl⟩
  next hnull =>
    have hnone : v.array = none := by simpa using hnull
    refine ⟨hnone, ?_, rfl⟩
    rw [h.array_size_eq, cells, hnone]
    rfl

/-- An empty vector without an array. -/
theorem Holds.of_null (hs : v.size = 0) (he : v.end_pos = 0) (ha : v.array = none) (hz : v.array_size = 0) :
    Holds v [] := by
  refine ⟨⟨hs, ?_, ?_, ?_⟩, he⟩
  · rw [hs]
    rfl
  · rw [hz, cells, ha]
    rfl
  · rw [ha]
    exact nofun

/-- A call answers as the one on the list does, leaves a vector of the new list, and changes nothing when it
throws. -/
structure Refines {β : Type} (v : Vector α) (r : Except Thrown β × Vector α) (s : Except Thrown β × List α) :
    Prop where
  answer_eq : r.1 = s.1
  holds : Holds r.2 s.2
  init_size_eq : r.2.init_size = v.init_size
  unchanged : ∀ e, r.1 = .error e → r.2 = v

theorem Refines.returns {β γ : Type} {x : Call α β} {f : β → γ} {b : β}
    (hx : x v = (.ok b, v')) (h : Holds v' l) (hi : v'.init_size = v.init_size) :
    Refines v ((x >>= fun b => pure (f b)) v) (.ok (f b), l) := by
  rw [bind_ok hx]
  exact ⟨rfl, h, hi, nofun⟩

theorem Refines.throws {β γ : Type} {x : Call α β} {f : β → Call α γ} {e : Thrown}
    (hx : x v = (.error e, v)) (h : Holds v l) : Refines v ((x >>= f) v) (.error e, l) := by
  rw [bind_error hx]
  exact ⟨rfl, h, rfl, fun _ _ => rfl⟩

end Vector

end Srl
