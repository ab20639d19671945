import Srl.VectorHolds
import Mathlib.Data.List.Infix

namespace Srl

open Cells Session

namespace Vector

variable {Value : Type} {v : Vector (Option Value)} {l : List (Option Value)} {n : Nat}

theorem resizePointers_spec (fresh : Nat → Option Value) (h : Stores v l) (hn : l.length ≤ n) (hpos : 0 < n)
    (hfew : max n v.init_size + 16 < 2 ^ 32) :
    ∃ v', resizePointers fresh n v = (.ok (), v') ∧ Resized v v' l n := by
  have hr : max n v.init_size < v.rounded n 16 := rounded_pos 4 (by decide) hfew
  have hfits := h.fits
  unfold resizePointers
  rw [get_bind, if_pos hpos]
  by_cases hsame : v.rounded n 16 = v.array_size
  · refine ⟨v, by rw [if_pos hsame]; rfl, h, rfl, rfl, by omega⟩
  · let w := { v with array := some (realloc v.cells (v.rounded n 16) fresh), array_size := v.rounded n 16 }
    have hcell : w.size < w.cells.length := by
      show v.size < (realloc v.cells (v.rounded n 16) fresh).length
      rw [length_realloc, h.size_eq]
      omega
    refine ⟨{ w with array := some (w.cells.set w.size none) }, ?_, ⟨h.size_eq, ?_, ?_, fun _ => ?_⟩, rfl, rfl, ?_⟩
    · rw [if_neg hsame]
      exact write_eq hcell
    · show ((realloc v.cells (v.rounded n 16) fresh).set v.size none).take v.size = l
      rw [List.take_set, List.set_eq_of_length_le (by simp), ← window_zero,
        window_realloc fresh (by rw [h.size_eq]; omega) (by rw [h.size_eq]; exact hfits), window_zero, h.elements]
    · show v.rounded n 16 = ((realloc v.cells (v.rounded n 16) fresh).set v.size none).length
      rw [List.length_set, length_realloc]
    · show v.size < v.rounded n 16
      rw [h.size_eq]
      omega
    · show n < v.rounded n 16
      omega

theorem clearPointers_spec (fresh : Nat → Option Value) (h : Holds v l) (hfew : v.init_size + 16 < 2 ^ 32)
    (do_delete : Bool) :
    ∃ v', clearPointers fresh do_delete v = (.ok (), v') ∧ Holds v' [] ∧ v'.init_size = v.init_size := by
  have hempty : Stores { v with size := 0 } [] := by
    refine ⟨rfl, rfl, h.array_size_eq, fun ha => ?_⟩
    exact Nat.lt_of_le_of_lt (Nat.zero_le _) (h.room ha)
  have hread : ¬(do_delete = true ∧ v.cells.length < v.size) := by
    have := h.fits
    rw [h.size_eq]
    omega
  unfold clearPointers
  rw [get_bind, if_neg hread, modify_bind]
  by_cases hinit : v.init_size = 0
  · obtain ⟨ha, hz, hi⟩ := release_spec hempty
    have hs : (release { v with size := 0 }).size = 0 := by
      unfold release
      split <;> rfl
    have hres : resizePointers fresh v.init_size { v with size := 0 } = (.ok (), release { v with size := 0 }) := by
      unfold resizePointers
      rw [get_bind, if_neg (by omega)]
      rfl
    rw [bind_ok hres]
    exact ⟨_, rfl, .of_null hs rfl ha hz, hi⟩
  · obtain ⟨w, hw, hr⟩ := resizePointers_spec fresh (n := v.init_size) hempty (Nat.zero_le _) (by omega)
      (by simpa using hfew)
    rw [bind_ok hw]
    exact ⟨_, rfl, ⟨⟨hr.stores.size_eq, hr.stores.elements, hr.stores.array_size_eq, hr.stores.room⟩, rfl⟩,
      hr.init_size_eq⟩

/-- The calls that change a vector of pointers or read from it. -/
inductive PointerOp (Value : Type)
  | add (value : Option Value)
  | remove (value : Option Value)
  | removeAt (index : Nat)
  | pop (index : Int32)
  | set (index : Nat) (value : Option Value)
  | get (index : Nat)
  | clear (do_delete : Bool)

/-- A call; those that return nothing answer `none`. -/
def PointerOp.call [DecidableEq Value] (fresh : Nat → Option Value) : PointerOp Value →
    Call (Option Value) (Option (Option Value))
  | .add value => do Vector.add (resizePointers fresh) value; pure none
  | .remove value => do Vector.remove (resizePointers fresh) value; pure none
  | .removeAt index => do Vector.removeAt (resizePointers fresh) index; pure none
  | .pop index => do let val ← Vector.pop fresh index; pure (some val)
  | .set index value => do let old ← Vector.set index value; pure (some old)
  | .get index => do let val ← Vector.get index; pure (some val)
  | .clear do_delete => do clearPointers fresh do_delete; pure none

/-- The same call on a list. -/
def PointerOp.onList [DecidableEq Value] : PointerOp Value → List (Option Value) →
    Except Thrown (Option (Option Value)) × List (Option Value)
  | .add value, l => (.ok none, l ++ [value])
  | .remove value, l =>
    if value ∈ l then (.ok none, l.erase value)
    else (.error (indexOutOfBounds "index is bigger then the size of the list (removeAt)"), l)
  | .removeAt index, l =>
    if index < l.length then (.ok none, l.eraseIdx index)
    else (.error (indexOutOfBounds "index is bigger then the size of the list (removeAt)"), l)
  | .pop index, l =>
    let pos := if index = -1 then l.length - 1 else index.toUInt32.toNat
    match l[pos]? with
    | some val => (.ok (some val), l.eraseIdx pos)
    | none => (.error (indexOutOfBounds "index is bigger then the size of the list (get)"), l)
  | .set index value, l =>
    match l[index]? with
    | some old => (.ok (some old), l.set index value)
    | none => (.error (indexOutOfBounds "index is bigger then the size of the list (set)"), l)
  | .get index, l =>
    match l[index]? with
    | some val => (.ok (some val), l)
    | none => (.error (indexOutOfBounds "index is bigger then the size of the list (get)"), l)
  | .clear _, _ => (.ok none, [])

theorem removeAtPointers_spec (fresh : Nat → Option Value) (h : Holds v l) (hfew : l.length + 32 < 2 ^ 32)
    (hinit : v.init_size + 32 < 2 ^ 32)
    {i : Nat} (hi : i < l.length) :
    ∃ v', Vector.removeAt (resizePointers fresh) i v = (.ok (), v') ∧ Holds v' (l.eraseIdx i) ∧
      v'.init_size = v.init_size := by
  have hlen := List.length_eraseIdx_of_lt hi
  refine h.removeAt_spec (by omega) hi fun hshrink => ?_
  apply resizePointers_spec fresh (h.removed (by omega) hi).toStores (by omega) (by omega)
  rw [removed_init_size]
  omega

/-- The position that `pop` computes is the one on the list, where there is one. -/
theorem popPosition_eq {size : Nat} (index : Int32) (hfew : size < 2 ^ 32) :
    ((if index = -1 then size - 1 else index.toUInt32.toNat) < size →
        popPosition size index = if index = -1 then size - 1 else index.toUInt32.toNat) ∧
      (size ≤ (if index = -1 then size - 1 else index.toUInt32.toNat) → size ≤ popPosition size index) := by
  unfold popPosition
  split
  next => constructor <;> intro h <;> omega
  next => exact ⟨fun _ => rfl, id⟩

theorem call_refines [DecidableEq Value] (fresh : Nat → Option Value) (c : PointerOp Value) (h : Holds v l)
    (hfew : l.length + 32 < 2 ^ 32)
    (hinit : v.init_size + 32 < 2 ^ 32) : Refines v (c.call fresh v) (c.onList l) := by
  cases c with
  | add value =>
    obtain ⟨v', hv', hholds, hi⟩ := h.add_spec rfl (by omega) value
      (resizePointers_spec fresh h.toStores (Nat.le_succ _) (Nat.succ_pos _) (by omega))
    exact .returns hv' hholds hi
  | remove value =>
    rw [PointerOp.call, PointerOp.onList]
    have hremove := h.remove_eq (resizePointers fresh) (by omega) value
    split
    next hmem =>
      obtain ⟨hpos, herase⟩ := position_of_mem hmem
      obtain ⟨v', hv', hholds, hi⟩ := removeAtPointers_spec fresh h hfew hinit hpos
      rw [herase] at hholds
      exact .returns (hremove.trans hv') hholds hi
    next hmem =>
      refine .throws (hremove.trans (h.removeAt_throws ?_)) h
      rw [position, if_neg hmem]
      omega
  | removeAt index =>
    rw [PointerOp.call, PointerOp.onList]
    split
    next hlt =>
      obtain ⟨v', hv', hholds, hi⟩ := removeAtPointers_spec fresh h hfew hinit hlt
      exact .returns hv' hholds hi
    next hlt => exact .throws (h.removeAt_throws (Nat.le_of_not_lt hlt)) h
  | pop index =>
    have hpos := popPosition_eq index (by omega : l.length < 2 ^ 32)
    rw [PointerOp.call, PointerOp.onList]
    split
    next val hval =>
      obtain ⟨hlt, -⟩ := List.getElem?_eq_some_iff.mp hval
      obtain ⟨v', hv', hholds, hi⟩ := removeAtPointers_spec fresh h hfew hinit hlt
      have hpop : Vector.pop fresh index v = (.ok val, v') := by
        unfold Vector.pop
        rw [get_bind, h.size_eq, hpos.1 hlt]
        unfold Vector.get
        rw [bind_ok (h.checked_eq _ hval), bind_ok hv']
        rfl
      exact .returns hpop hholds hi
    next hnone =>
      have hpop : Vector.pop fresh index v =
          (.error (indexOutOfBounds "index is bigger then the size of the list (get)"), v) := by
        unfold Vector.pop Vector.get
        rw [get_bind, h.size_eq, bind_error (h.checked_throws _ (hpos.2 (List.getElem?_eq_none_iff.mp hnone)))]
      exact .throws hpop h
  | set index value =>
    rw [PointerOp.call, PointerOp.onList]
    split
    next old hold =>
      obtain ⟨hlt, -⟩ := List.getElem?_eq_some_iff.mp hold
      obtain ⟨v', hv', hholds, hi⟩ := h.write_spec (a := value) hlt
      have hset : Vector.set index value v = (.ok old, v') := by
        unfold Vector.set
        rw [bind_ok (h.checked_eq _ hold), bind_ok hv']
        rfl
      exact .returns hset hholds hi
    next hnone =>
      have hset : Vector.set index value v = (.error
          (indexOutOfBounds "index is bigger then the size of the list (set)"), v) :=
        bind_error (h.checked_throws _ (List.getElem?_eq_none_iff.mp hnone))
      exact .throws hset h
  | get index =>
    rw [PointerOp.call, PointerOp.onList, Vector.get]
    split
    next val hval => exact .returns (h.checked_eq _ hval) h rfl
    next hnone => exact .throws (h.checked_throws _ (List.getElem?_eq_none_iff.mp hnone)) h
  | clear do_delete =>
    obtain ⟨v', hv', hholds, hi⟩ := clearPointers_spec fresh h (by omega) do_delete
    exact .returns hv' hholds hi

theorem onList_ne_fault [DecidableEq Value] (c : PointerOp Value) (l : List (Option Value)) :
    (c.onList l).1 ≠ .error .fault := by
  have hthrown : ∀ message : String,
      (.error (indexOutOfBounds message) : Except Thrown (Option (Option Value))) ≠ .error .fault := by
    intro message he
    have := Except.error.inj he
    simp [indexOutOfBounds] at this
  cases c with
  | add | clear => exact nofun
  | remove | removeAt | pop | set | get =>
    rw [PointerOp.onList]
    split
    next => exact nofun
    next => exact hthrown _

theorem new_holds (fresh : Nat → Option Value) {initial_size : Nat} (hinit : initial_size + 32 < 2 ^ 32) :
    ∃ v, resizePointers fresh initial_size (empty initial_size) = (.ok (), v) ∧ Holds v [] ∧
      v.init_size = initial_size := by
  have hempty : Stores (empty initial_size : Vector (Option Value)) [] := ⟨rfl, rfl, rfl, nofun⟩
  by_cases hzero : initial_size = 0
  · subst hzero
    exact ⟨_, rfl, ⟨hempty, rfl⟩, rfl⟩
  · obtain ⟨v, hv, hr⟩ := resizePointers_spec fresh (n := initial_size) hempty (Nat.zero_le _) (by omega)
      (by simp only [empty, max_self]; omega)
    exact ⟨v, hv, ⟨hr.stores, hr.end_pos_eq⟩, hr.init_size_eq⟩

/-- The calls on a vector of pointers, each with what the memory holds that it may get. -/
def callPointers [DecidableEq Value] (c : PointerOp Value × (Nat → Option Value)) (v : Vector (Option Value)) :
    Except Thrown (Option (Option Value)) × Vector (Option Value) :=
  c.1.call c.2 v

def callPointerList [DecidableEq Value] (c : PointerOp Value × (Nat → Option Value)) (l : List (Option Value)) :
    Except Thrown (Option (Option Value)) × List (Option Value) :=
  c.1.onList l

end Vector

end Srl
