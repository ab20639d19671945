import Srl.VectorPointers
import Srl.VectorValues

namespace Srl

open Cells Session

namespace Vector

variable {α : Type} {v v' w : Vector α} {l k : List α} {i n : Nat} {a b : α} {resize : Nat → Call α Unit}

theorem insertIdx_eq (hi : i ≤ l.length) : l.insertIdx i a = l.take i ++ a :: l.drop i := by
  induction l generalizing i with
  | nil =>
    obtain rfl : i = 0 := Nat.le_zero.mp hi
    rfl
  | cons b l ih =>
    cases i with
    | zero => rfl
    | succ i =>
      rw [List.insertIdx_succ_cons, ih (Nat.le_of_succ_le_succ hi), List.take_succ_cons, List.drop_succ_cons,
        List.cons_append]

theorem take_set_succ (hi : i < l.length) : (l.set i a).take (i + 1) = l.take i ++ [a] := by
  rw [List.take_set, List.take_add_one, List.getElem?_eq_getElem hi, List.set_append_right _ _ (by simp)]
  simp [Nat.min_eq_left (Nat.le_of_lt hi)]

/-- The elements from the index on move down by one. -/
theorem take_shift {cells : List α} {size : Nat} (hi : i < size) (hsize : size < cells.length) :
    ((overwrite cells (i + 1) (window cells i size)).set i a).take (size + 1) = (cells.take size).insertIdx i a := by
  have hlen : (window cells i size).length = size - i := by
    rw [length_window]
    omega
  have htake : (overwrite cells (i + 1) (window cells i size)).take (size + 1) =
      cells.take (i + 1) ++ window cells i size := by
    have hdata : (window cells i size).take (cells.length - (i + 1)) = window cells i size :=
      List.take_of_length_le (by omega)
    rw [overwrite, hdata, List.take_left' (by rw [List.length_append, List.length_take, hlen]; omega)]
  have hset : (cells.take (i + 1)).set i a = cells.take i ++ [a] := by
    rw [← List.take_set, take_set_succ (by omega)]
  rw [List.take_set, htake, List.set_append_left _ _ (by rw [List.length_take]; omega), hset,
    insertIdx_eq (by rw [List.length_take]; omega), List.take_take, Nat.min_eq_left (by omega), List.append_assoc]
  rfl

theorem take_last {cells : List α} {size : Nat} (hi : i + 1 = size) (hb : cells[size]? = some b) :
    (cells.set i a).take (size + 1) = (cells.take size).take i ++ [a, b] := by
  obtain ⟨hlt, -⟩ := List.getElem?_eq_some_iff.mp hb
  subst hi
  rw [List.take_add_one, List.getElem?_set_ne (by omega), hb, take_set_succ (by omega), List.take_take,
    Nat.min_eq_left (by omega), List.append_assoc]
  rfl

/-- What `addAt` makes of a list: at the last index nothing moves, and the cell behind the elements joins them. -/
def addedAt (l : List α) (i : Nat) (a b : α) : List α :=
  if i = l.length - 1 then l.take i ++ [a, b] else l.insertIdx i a

theorem length_addedAt (hi : i < l.length) : (addedAt l i a b).length = l.length + 1 := by
  unfold addedAt
  split
  next => simp; omega
  next => rw [List.length_insertIdx_of_le_length (by omega)]

/-- `addAt` after a resize that leaves the elements `k`, with `b` behind them. -/
theorem Holds.addAt_spec (h : Holds v l) (hi : i < l.length) (hfew : l.length + 1 < 2 ^ 32)
    (hk : k.length = l.length) (hresize : resize (l.length + 1) v = (.ok (), w)) (hr : Resized v w k (l.length + 1))
    (hb : w.cells[l.length]? = some b) :
    ∃ v', addAt resize i a v = (.ok (), v') ∧ Holds v' (addedAt k i a b) := by
  have hsize : v.size = l.length := h.size_eq
  have hwsize : w.size = l.length := hr.stores.size_eq.trans hk
  have hroom : l.length + 1 < w.cells.length := hr.stores.array_size_eq ▸ hr.room
  have hadd := length_addedAt (a := a) (b := b) (hk.symm ▸ hi)
  have hmod : (w.size + 1) % 2 ^ 32 = l.length + 1 := by rw [hwsize, Nat.mod_eq_of_lt hfew]
  have hend : ∀ cells : List α, cells.length = w.cells.length →
      (cells.set i a).take (l.length + 1) = addedAt k i a b →
      ∃ v', (do
        write i a
        modify fun v => { v with size := (v.size + 1) % 2 ^ 32, end_pos := (v.end_pos + 1) % 2 ^ 32 } : Call α Unit)
          { w with array := some cells } = (.ok (), v') ∧ Holds v' (addedAt k i a b) := by
    intro cells hlen htake
    have hwrite := @write_eq _ { w with array := some cells } i a (show i < cells.length by omega)
    refine ⟨_, bind_ok hwrite, ⟨⟨?_, ?_, ?_, fun _ => ?_⟩, ?_⟩⟩
    · rw [hadd, hk, ← hmod]
    · show (cells.set i a).take ((w.size + 1) % 2 ^ 32) = _
      rw [hmod, htake]
    · show w.array_size = (cells.set i a).length
      rw [List.length_set, hlen, hr.stores.array_size_eq]
    · show (w.size + 1) % 2 ^ 32 < w.array_size
      rw [hmod]
      exact hr.room
    · show (w.end_pos + 1) % 2 ^ 32 = _
      rw [hr.end_pos_eq, h.end_eq, Nat.mod_eq_of_lt hfew, hadd, hk]
  have hlast : (w.size + 2 ^ 32 - 1) % 2 ^ 32 = l.length - 1 := by omega
  have hrest : (w.size + 2 ^ 32 - i) % 2 ^ 32 = l.length - i := by omega
  unfold addAt
  rw [get_bind, if_neg (by omega), hsize, Nat.mod_eq_of_lt hfew, bind_ok hresize, get_bind, hlast, hrest]
  by_cases hil : i = l.length - 1
  · have harray : ({ w with array := some w.cells } : Vector α) = w := by
      have hsome := hr.stores.array_isSome (List.ne_nil_of_length_pos (by omega))
      obtain ⟨cells, hcells⟩ := Option.isSome_iff_exists.mp hsome
      rw [Vector.cells, hcells, Option.getD_some, ← hcells]
    have htake := take_last (i := i) (a := a) (by omega) hb
    rw [if_neg (not_not.mpr hil)]
    rw [← hwsize, hr.stores.elements, hwsize] at htake
    have hdone := hend w.cells rfl (by rw [htake, addedAt, if_pos (by omega)])
    rwa [harray] at hdone
  · have htake := take_shift (a := a) hi (Nat.lt_of_succ_lt hroom)
    rw [if_pos hil, bind_ok (move_eq (by omega)), Nat.add_sub_cancel' (Nat.le_of_lt hi)]
    refine hend _ (length_overwrite _ _ _) (htake.trans ?_)
    rw [← hwsize, hr.stores.elements, addedAt, if_neg (by omega)]

theorem addedAt_eq_iff (hi : i < l.length) (hk : k.length = l.length) :
    addedAt k i a b = l.insertIdx i a ↔
      if i = l.length - 1 then k.take i = l.take i ∧ some b = l[i]? else k = l := by
  unfold addedAt
  rw [hk]
  split
  next hlast =>
    have hdrop : l.drop i = [l[i]] := by
      rw [List.drop_eq_getElem_cons hi, List.drop_eq_nil_of_le (by omega)]
    rw [insertIdx_eq (Nat.le_of_lt hi), hdrop, List.getElem?_eq_getElem hi]
    constructor
    · intro h
      obtain ⟨htake, htail⟩ := List.append_inj h (by rw [List.length_take, List.length_take, hk])
      simp only [List.cons.injEq, and_true, true_and] at htail
      exact ⟨htake, congrArg some htail⟩
    · rintro ⟨htake, hb⟩
      rw [htake, Option.some.inj hb]
  next =>
    refine ⟨fun h => ?_, fun h => by rw [h]⟩
    have herase := congrArg (List.eraseIdx · i) h
    simpa only [List.eraseIdx_insertIdx_self] using herase

/-- The cell behind the elements after the resize that `addAt` asks for. -/
def behindValues (fresh : Nat → α) (v : Vector α) : Option α :=
  if v.rounded (v.size + 1) 32 = v.array_size then v.cells[v.size]? else some (fresh v.size)

def behindPointers (v : Vector (Option α)) : Option (Option α) :=
  if v.rounded (v.size + 1) 16 = v.array_size then v.cells[v.size]? else some none

theorem resized_behind (fresh : Nat → α) (h : Stores v l) (hfew : max (l.length + 1) v.init_size + 32 < 2 ^ 32) :
    (v.resized fresh (l.length + 1)).cells[l.length]? = behindValues fresh v := by
  have hr : max (l.length + 1) v.init_size < v.rounded (l.length + 1) 32 := rounded_pos 5 (by decide) hfew
  unfold resized behindValues
  rw [h.size_eq]
  split
  next => rfl
  next =>
    have hfresh : ((List.range (v.rounded (l.length + 1) 32)).map fresh)[l.length]? = some (fresh l.length) := by
      rw [List.getElem?_map, List.getElem?_range (by omega)]
      rfl
    show (v.newArray fresh (l.length + 1))[l.length]? = _
    unfold newArray
    split
    next =>
      rw [h.elements, overwrite, List.take_zero, List.nil_append, List.getElem?_append_right (by simp),
        Nat.zero_add, List.take_of_length_le (by simp; omega), Nat.sub_self, List.getElem?_drop]
      exact hfresh
    next => exact hfresh

theorem resizePointers_behind (fresh : Nat → Option α) {v : Vector (Option α)} {l : List (Option α)} (h : Stores v l)
    (hfew : max (l.length + 1) v.init_size + 16 < 2 ^ 32) :
    ∃ w, resizePointers fresh (l.length + 1) v = (.ok (), w) ∧ w.cells[l.length]? = behindPointers v := by
  have hr : max (l.length + 1) v.init_size < v.rounded (l.length + 1) 16 := rounded_pos 4 (by decide) hfew
  unfold resizePointers behindPointers
  rw [get_bind, if_pos (Nat.succ_pos _), h.size_eq]
  by_cases hsame : v.rounded (l.length + 1) 16 = v.array_size
  · exact ⟨v, by rw [if_pos hsame]; rfl, by rw [if_pos hsame]⟩
  · have hlt : l.length < (realloc v.cells (v.rounded (l.length + 1) 16) fresh).length := by
      rw [length_realloc]
      omega
    rw [if_neg hsame, if_neg hsame]
    exact ⟨_, write_eq hlt, List.getElem?_set_self hlt⟩

/-- Everything that `addAt` on values does: whether it inserts depends on the resize at its start and, at
the last index, on the cell behind the elements. -/
theorem addAtValues_inserts (fresh : Nat → α) (h : Holds v l) (hi : i < l.length)
    (hfew : max (l.length + 1) v.init_size + 32 < 2 ^ 32) :
    (∃ v', addAt (resizeValues fresh) i a v = (.ok (), v') ∧ Holds v' (l.insertIdx i a)) ↔
      if i = l.length - 1 then (kept fresh v l (l.length + 1)).take i = l.take i ∧ behindValues fresh v = l[i]?
      else kept fresh v l (l.length + 1) = l := by
  obtain ⟨w, hw, hr⟩ := resizeValues_spec fresh h.toStores (Nat.le_succ _) (Nat.succ_pos _) hfew
  have hk := length_kept fresh v l (l.length + 1)
  have hbehind := resized_behind fresh h.toStores hfew
  rw [← (Prod.mk.inj (hw.symm.trans (resizeValues_eq fresh h.toStores (Nat.succ_pos _)))).2] at hbehind
  have hroom : l.length < w.cells.length := Nat.lt_of_succ_lt (hr.stores.array_size_eq ▸ hr.room)
  rw [← hbehind, List.getElem?_eq_getElem hroom, ← addedAt_eq_iff hi hk]
  obtain ⟨v', hv', hholds⟩ := h.addAt_spec (a := a) hi (by omega) hk hw hr (List.getElem?_eq_getElem hroom)
  constructor
  · rintro ⟨v'', hv'', hinsert⟩
    cases hv'.symm.trans hv''
    exact hholds.unique hinsert.toStores
  · intro he
    exact ⟨v', hv', he ▸ hholds⟩

theorem addAtPointers_inserts (fresh : Nat → Option α) {v : Vector (Option α)} {l : List (Option α)} {a : Option α}
    (h : Holds v l) (hi : i < l.length) (hfew : max (l.length + 1) v.init_size + 16 < 2 ^ 32) :
    (∃ v', addAt (resizePointers fresh) i a v = (.ok (), v') ∧ Holds v' (l.insertIdx i a)) ↔
      (i = l.length - 1 → behindPointers v = l[i]?) := by
  obtain ⟨w, hw, hr⟩ := resizePointers_spec fresh h.toStores (Nat.le_succ _) (Nat.succ_pos _) hfew
  obtain ⟨w', hw', hbehind⟩ := resizePointers_behind fresh h.toStores hfew
  cases hw.symm.trans hw'
  have hroom : l.length < w.cells.length := Nat.lt_of_succ_lt (hr.stores.array_size_eq ▸ hr.room)
  rw [← hbehind, List.getElem?_eq_getElem hroom]
  have hiff := addedAt_eq_iff (a := a) (b := w.cells[l.length]) hi rfl
  obtain ⟨v', hv', hholds⟩ := h.addAt_spec (a := a) hi (by omega) rfl hw hr (List.getElem?_eq_getElem hroom)
  have hlast : addedAt l i a w.cells[l.length] = l.insertIdx i a ↔
      (i = l.length - 1 → some w.cells[l.length] = l[i]?) := by
    rw [hiff]
    by_cases hil : i = l.length - 1
    · rw [if_pos hil]
      exact ⟨fun h _ => h.2, fun h => ⟨rfl, h hil⟩⟩
    · rw [if_neg hil]
      exact ⟨fun _ h => absurd h hil, fun _ => rfl⟩
  rw [← hlast]
  constructor
  · rintro ⟨v'', hv'', hinsert⟩
    cases hv'.symm.trans hv''
    exact hholds.unique hinsert.toStores
  · intro he
    exact ⟨v', hv', he ▸ hholds⟩

/-- Two elements, 5 and 6, in an array of 64 cells. -/
def pair : Vector Nat := ⟨2, 32, 64, some ([5, 6] ++ List.replicate 62 0), 2⟩

theorem pair_holds : Holds pair [5, 6] := ⟨⟨rfl, rfl, rfl, fun _ => by decide⟩, rfl⟩

end Vector

end Srl
