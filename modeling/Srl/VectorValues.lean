import Srl.VectorHolds
import Mathlib.Data.List.Infix

namespace Srl

open Cells Session

namespace Vector

variable {Value : Type} {v : Vector Value} {l : List Value} {n i : Nat}

/-- The cells of the array that a resize makes. -/
def newArray (fresh : Nat → Value) (v : Vector Value) (n : Nat) : List Value :=
  let new_array := (List.range (v.rounded n 32)).map fresh
  if v.array.isSome ∧ v.array_size < v.rounded n 32 ∧ 0 < v.size then
    overwrite new_array 0 (v.cells.take v.size)
  else new_array

theorem length_newArray (fresh : Nat → Value) (v : Vector Value) (n : Nat) :
    (v.newArray fresh n).length = v.rounded n 32 := by
  unfold newArray
  split
  next => rw [length_overwrite, List.length_map, List.length_range]
  next => rw [List.length_map, List.length_range]

/-- The vector after a resize. -/
def resized (fresh : Nat → Value) (v : Vector Value) (n : Nat) : Vector Value :=
  if v.rounded n 32 = v.array_size then v
  else { v with array := some (v.newArray fresh n), array_size := v.rounded n 32 }

theorem resizeValues_eq (fresh : Nat → Value) (h : Stores v l) (hpos : 0 < n) :
    resizeValues fresh n v = (.ok (), v.resized fresh n) := by
  have hfits := h.fits
  have hsize := h.size_eq
  have harray := h.array_size_eq
  unfold resizeValues resized newArray
  rw [get_bind, if_pos hpos]
  by_cases hsame : v.rounded n 32 = v.array_size
  · rw [if_pos hsame, if_pos hsame]
    rfl
  · rw [if_neg hsame, if_neg hsame]
    by_cases hgrow : v.array.isSome ∧ v.array_size < v.rounded n 32 ∧ 0 < v.size
    · rw [if_pos hgrow, if_pos ⟨by omega, by omega⟩, if_pos hgrow]
      rfl
    · rw [if_neg hgrow, if_neg hgrow]
      rfl

theorem resized_array_size (fresh : Nat → Value) (h : Stores v l) (n : Nat) :
    (v.resized fresh n).array_size = v.rounded n 32 ∧
      (v.resized fresh n).array_size = (v.resized fresh n).cells.length := by
  unfold resized
  split
  next hsame => exact ⟨hsame.symm, h.array_size_eq⟩
  next => exact ⟨rfl, (length_newArray fresh v n).symm⟩

theorem resized_fields (fresh : Nat → Value) (v : Vector Value) (n : Nat) :
    (v.resized fresh n).size = v.size ∧ (v.resized fresh n).init_size = v.init_size ∧
      (v.resized fresh n).end_pos = v.end_pos := by
  unfold resized
  split <;> exact ⟨rfl, rfl, rfl⟩

/-- The elements that a resize leaves: an array that shrinks is a new one. -/
def kept (fresh : Nat → Value) (v : Vector Value) (l : List Value) (n : Nat) : List Value :=
  if v.rounded n 32 < v.array_size then (List.range l.length).map fresh else l

theorem length_kept (fresh : Nat → Value) (v : Vector Value) (l : List Value) (n : Nat) :
    (kept fresh v l n).length = l.length := by
  unfold kept
  split
  next => rw [List.length_map, List.length_range]
  next => rfl

theorem take_fresh (fresh : Nat → Value) {m k : Nat} (h : m ≤ k) :
    ((List.range k).map fresh).take m = (List.range m).map fresh := by
  rw [← List.map_take, List.take_range, Nat.min_eq_left h]

theorem resized_elements (fresh : Nat → Value) (h : Stores v l) (hroom : l.length ≤ v.rounded n 32) :
    (v.resized fresh n).cells.take v.size = kept fresh v l n := by
  have hsize := h.size_eq
  unfold resized kept
  by_cases hsame : v.rounded n 32 = v.array_size
  · rw [if_pos hsame, if_neg (by omega), h.elements]
  · rw [if_neg hsame]
    show (v.newArray fresh n).take v.size = _
    unfold newArray
    by_cases hgrow : v.array.isSome ∧ v.array_size < v.rounded n 32 ∧ 0 < v.size
    · have hlen : (v.cells.take v.size).length = v.size := by
        rw [h.elements, hsize]
      have hself := @window_overwrite_self _ ((List.range (v.rounded n 32)).map fresh) (v.cells.take v.size) 0
        (by rw [hlen, List.length_map, List.length_range]; omega)
      rw [hlen, Nat.zero_add, window_zero] at hself
      rw [if_pos hgrow, if_neg (by omega), hself, h.elements]
    · rw [if_neg hgrow, take_fresh fresh (by omega), hsize]
      split
      next => rfl
      next hge =>
        obtain rfl : l = [] := by
          by_contra hne
          have := List.length_pos_of_ne_nil hne
          exact hgrow ⟨h.array_isSome hne, by omega, by omega⟩
        rfl

theorem resizeValues_spec (fresh : Nat → Value) (h : Stores v l) (hn : l.length ≤ n) (hpos : 0 < n)
    (hfew : max n v.init_size + 32 < 2 ^ 32) :
    ∃ v', resizeValues fresh n v = (.ok (), v') ∧ Resized v v' (kept fresh v l n) n := by
  have hr : max n v.init_size < v.rounded n 32 := rounded_pos 5 (by decide) hfew
  obtain ⟨hs, hi, he⟩ := resized_fields fresh v n
  obtain ⟨ha, hc⟩ := resized_array_size fresh h n
  refine ⟨_, resizeValues_eq fresh h hpos, ⟨?_, ?_, hc, fun _ => ?_⟩, hi, he, ?_⟩
  · rw [hs, length_kept, h.size_eq]
  · rw [hs, resized_elements fresh h (by omega)]
  · rw [hs, ha, h.size_eq]
    omega
  · rw [ha]
    omega

theorem clearValues_spec (fresh : Nat → Value) (h : Holds v l) (hinit : v.init_size + 32 < 2 ^ 32) :
    ∃ v', clearValues fresh v = (.ok (), v') ∧ Holds v' [] ∧ v'.init_size = v.init_size := by
  unfold clearValues
  rw [get_bind]
  by_cases hzero : v.init_size = 0
  · have hres : resizeValues fresh v.init_size v = (.ok (), v.release) := by
      unfold resizeValues
      rw [get_bind, if_neg (by omega)]
      rfl
    rw [bind_ok hres]
    obtain ⟨ha, hz, hi⟩ := release_spec h.toStores
    exact ⟨_, rfl, .of_null rfl rfl ha hz, hi⟩
  · rw [bind_ok (resizeValues_eq fresh h.toStores (by omega))]
    obtain ⟨-, hi, -⟩ := resized_fields fresh v v.init_size
    obtain ⟨ha, hc⟩ := resized_array_size fresh h.toStores v.init_size
    have hr : max v.init_size v.init_size < v.rounded v.init_size 32 := rounded_pos 5 (by decide) (by simpa using hinit)
    refine ⟨_, rfl, ⟨⟨rfl, rfl, hc, fun _ => ?_⟩, rfl⟩, hi⟩
    show 0 < (v.resized fresh v.init_size).array_size
    rw [ha]
    omega

/-- The calls that change a vector of values or read from it. -/
inductive ValueOp (Value : Type)
  | add (value : Value)
  | remove (value : Value)
  | removeAt (index : Nat)
  | get (index : Nat)
  | clear

/-- A call; those that return nothing answer `none`. -/
def ValueOp.call [DecidableEq Value] (fresh : Nat → Value) : ValueOp Value → Call Value (Option Value)
  | .add value => do Vector.add (resizeValues fresh) value; pure none
  | .remove value => do Vector.remove (resizeValues fresh) value; pure none
  | .removeAt index => do Vector.removeAt (resizeValues fresh) index; pure none
  | .get index => do let val ← Vector.get index; pure (some val)
  | .clear => do clearValues fresh; pure none

/-- The same call on a list. -/
def ValueOp.onList [DecidableEq Value] : ValueOp Value → List Value → Except Thrown (Option Value) × List Value
  | .add value, l => (.ok none, l ++ [value])
  | .remove value, l =>
    if value ∈ l then (.ok none, l.erase value)
    else (.error (indexOutOfBounds "index is bigger then the size of the list (removeAt)"), l)
  | .removeAt index, l =>
    if index < l.length then (.ok none, l.eraseIdx index)
    else (.error (indexOutOfBounds "index is bigger then the size of the list (removeAt)"), l)
  | .get index, l =>
    match l[index]? with
    | some val => (.ok (some val), l)
    | none => (.error (indexOutOfBounds "index is bigger then the size of the list (get)"), l)
  | .clear, _ => (.ok none, [])

/-- A removal leaves few enough elements for `removeAt` not to resize, or the array does not shrink. -/
def RemovalKeeps (v : Vector Value) : Prop :=
  v.init_size < v.size - 1 → v.array_size ≤ v.rounded (v.size - 1) 32

/-- The call does not shrink an array that has elements to keep. -/
def ValueOp.Keeps (v : Vector Value) : ValueOp Value → Prop
  | .add _ => 0 < v.size → v.array_size ≤ v.rounded (v.size + 1) 32
  | .remove value => value ∈ v.cells.take v.size → RemovalKeeps v
  | .removeAt index => index < v.size → RemovalKeeps v
  | .get _ | .clear => True

instance (v : Vector Value) : Decidable (RemovalKeeps v) :=
  inferInstanceAs (Decidable (v.init_size < v.size - 1 → v.array_size ≤ v.rounded (v.size - 1) 32))

instance [DecidableEq Value] (v : Vector Value) : (c : ValueOp Value) → Decidable (c.Keeps v)
  | .add _ => inferInstanceAs (Decidable (0 < v.size → v.array_size ≤ v.rounded (v.size + 1) 32))
  | .remove value => inferInstanceAs (Decidable (value ∈ v.cells.take v.size → RemovalKeeps v))
  | .removeAt index => inferInstanceAs (Decidable (index < v.size → RemovalKeeps v))
  | .get _ | .clear => isTrue trivial

theorem rounded_removed (v : Vector Value) (i n k : Nat) : (v.removed i).rounded n k = v.rounded n k := by
  rw [rounded, rounded, removed_init_size]

/-- `removeAt` when it resizes. -/
theorem removeAtValues_shrinks (fresh : Nat → Value) (h : Holds v l) (hfew : l.length + 32 < 2 ^ 32)
    (hi : i < l.length) (hinit : v.init_size < l.length - 1) :
    ∃ v', Vector.removeAt (resizeValues fresh) i v = (.ok (), v') ∧
      Holds v' (kept fresh v (l.eraseIdx i) (l.length - 1)) ∧ v'.init_size = v.init_size := by
  have hlen := List.length_eraseIdx_of_lt hi
  have hkept : kept fresh (v.removed i) (l.eraseIdx i) (l.length - 1) = kept fresh v (l.eraseIdx i) (l.length - 1) := by
    rw [kept, kept, rounded_removed, removed_array_size]
  rw [← hkept]
  refine h.removeAt_shrinks (by omega) hi (by rw [length_kept, hlen]) hinit ?_
  apply resizeValues_spec fresh (h.removed (by omega) hi).toStores (by omega) (by omega)
  rw [removed_init_size]
  omega

theorem kept_eq {fresh : Nat → Value} (hk : v.array_size ≤ v.rounded n 32) : kept fresh v l n = l := by
  rw [kept, if_neg (by omega)]

theorem removeAtValues_spec (fresh : Nat → Value) (h : Holds v l) (hfew : l.length + 32 < 2 ^ 32)
    (hi : i < l.length) (hkeeps : RemovalKeeps v) :
    ∃ v', Vector.removeAt (resizeValues fresh) i v = (.ok (), v') ∧ Holds v' (l.eraseIdx i) ∧
      v'.init_size = v.init_size := by
  have hlen := List.length_eraseIdx_of_lt hi
  unfold RemovalKeeps at hkeeps
  rw [h.size_eq] at hkeeps
  by_cases hinit : v.init_size < l.length - 1
  · obtain hshrinks := removeAtValues_shrinks fresh h hfew hi hinit
    rwa [kept_eq (hkeeps hinit)] at hshrinks
  · exact h.removeAt_spec (by omega) hi fun hlt => absurd hlt hinit

theorem addValues_spec (fresh : Nat → Value) (h : Holds v l) (hfew : l.length + 1 + 32 < 2 ^ 32)
    (hinit : v.init_size + 32 < 2 ^ 32) (value : Value) :
    ∃ v', Vector.add (resizeValues fresh) value v = (.ok (), v') ∧
      Holds v' (kept fresh v l (l.length + 1) ++ [value]) ∧ v'.init_size = v.init_size :=
  h.add_spec (length_kept fresh v l _) (by omega) value
    (resizeValues_spec fresh h.toStores (Nat.le_succ _) (Nat.succ_pos _) (by omega))

theorem valueCall_refines [DecidableEq Value] (fresh : Nat → Value) (c : ValueOp Value) (h : Holds v l)
    (hfew : (c.onList l).2.length + 32 < 2 ^ 32) (hlist : l.length + 32 < 2 ^ 32)
    (hinit : v.init_size + 32 < 2 ^ 32) (hkeeps : c.Keeps v) :
    Refines v (c.call fresh v) (c.onList l) := by
  cases c with
  | add value =>
    obtain ⟨v', hv', hholds, hi⟩ := addValues_spec fresh h (by simpa [ValueOp.onList] using hfew) hinit value
    have hkept : kept fresh v l (l.length + 1) = l := by
      by_cases hne : l = []
      · subst hne
        exact List.eq_nil_of_length_eq_zero (length_kept fresh v [] _)
      · exact kept_eq (h.size_eq ▸ hkeeps (by rw [h.size_eq]; exact List.length_pos_of_ne_nil hne))
    rw [hkept] at hholds
    exact .returns hv' hholds hi
  | remove value =>
    rw [ValueOp.call, ValueOp.onList]
    have hremove := h.remove_eq (resizeValues fresh) (by omega) value
    split
    next hmem =>
      obtain ⟨hpos, herase⟩ := position_of_mem hmem
      obtain ⟨v', hv', hholds, hi⟩ := removeAtValues_spec fresh h hlist hpos (hkeeps (by rwa [h.elements]))
      rw [herase] at hholds
      exact .returns (hremove.trans hv') hholds hi
    next hmem =>
      refine .throws (hremove.trans (h.removeAt_throws ?_)) h
      rw [position, if_neg hmem]
      omega
  | removeAt index =>
    rw [ValueOp.call, ValueOp.onList]
    split
    next hlt =>
      obtain ⟨v', hv', hholds, hi⟩ := removeAtValues_spec fresh h hlist hlt (hkeeps (by rwa [h.size_eq]))
      exact .returns hv' hholds hi
    next hlt => exact .throws (h.removeAt_throws (Nat.le_of_not_lt hlt)) h
  | get index =>
    rw [ValueOp.call, ValueOp.onList, Vector.get]
    split
    next val hval => exact .returns (h.checked_eq _ hval) h rfl
    next hnone => exact .throws (h.checked_throws _ (List.getElem?_eq_none_iff.mp hnone)) h
  | clear =>
    obtain ⟨v', hv', hholds, hi⟩ := clearValues_spec fresh h hinit
    exact .returns hv' hholds hi

theorem exists_fresh [Nontrivial Value] (hne : l ≠ []) : ∃ fresh : Nat → Value,
    (List.range l.length).map fresh ≠ l := by
  obtain ⟨a, as, rfl⟩ := List.exists_cons_of_ne_nil hne
  obtain ⟨b, hb⟩ := exists_ne a
  refine ⟨fun _ => b, fun he => hb ?_⟩
  rw [List.length_cons, List.range_succ_eq_map] at he
  exact (List.cons.inj he).1

theorem kept_of_shrinks {fresh : Nat → Value} (hs : v.rounded n 32 < v.array_size) :
    kept fresh v l n = (List.range l.length).map fresh := by
  rw [kept, if_pos hs]

theorem removeAtValues_loses [Nontrivial Value] (h : Holds v l) (hfew : l.length + 32 < 2 ^ 32)
    (hi : i < l.length) (hkeeps : ¬RemovalKeeps v) :
    ∃ fresh, ¬Holds (Vector.removeAt (resizeValues fresh) i v).2 (l.eraseIdx i) := by
  have hlen := List.length_eraseIdx_of_lt hi
  unfold RemovalKeeps at hkeeps
  rw [h.size_eq, Classical.not_imp, Nat.not_le] at hkeeps
  have hne : l.eraseIdx i ≠ [] := List.ne_nil_of_length_pos (by omega)
  obtain ⟨fresh, hfresh⟩ := exists_fresh hne
  obtain ⟨v', hv', hholds, -⟩ := removeAtValues_shrinks fresh h hfew hi hkeeps.1
  rw [kept_of_shrinks hkeeps.2] at hholds
  refine ⟨fresh, fun hlist => hfresh ?_⟩
  rw [hv'] at hlist
  exact hholds.unique hlist.toStores

theorem bind_pure_snd {α β γ : Type} (x : Call α β) (f : β → γ) (v : Vector α) :
    ((x >>= fun b => pure (f b)) v).2 = (x v).2 := by
  cases hx : x v with
  | mk r v' =>
    cases r with
    | ok b => rw [bind_ok hx]; rfl
    | error e => rw [bind_error hx]

/-- A call that shrinks the array loses elements, whatever they were. -/
theorem valueCall_loses [DecidableEq Value] [Nontrivial Value] (c : ValueOp Value) (h : Holds v l)
    (hfew : (c.onList l).2.length + 32 < 2 ^ 32) (hlist : l.length + 32 < 2 ^ 32)
    (hinit : v.init_size + 32 < 2 ^ 32) (hkeeps : ¬c.Keeps v) :
    ∃ fresh, ¬Holds (c.call fresh v).2 (c.onList l).2 := by
  cases c with
  | add value =>
    rw [ValueOp.Keeps, Classical.not_imp, Nat.not_le, h.size_eq] at hkeeps
    obtain ⟨fresh, hfresh⟩ := exists_fresh (List.ne_nil_of_length_pos hkeeps.1)
    obtain ⟨v', hv', hholds, -⟩ := addValues_spec fresh h (by simpa [ValueOp.onList] using hfew) hinit value
    rw [kept_of_shrinks hkeeps.2] at hholds
    refine ⟨fresh, fun hlist => hfresh ?_⟩
    rw [ValueOp.call, bind_ok hv'] at hlist
    exact List.append_cancel_right (hholds.unique hlist.toStores)
  | remove value =>
    rw [ValueOp.Keeps, Classical.not_imp, h.elements] at hkeeps
    obtain ⟨hpos, herase⟩ := position_of_mem hkeeps.1
    obtain ⟨fresh, hloses⟩ := removeAtValues_loses h hlist hpos hkeeps.2
    refine ⟨fresh, ?_⟩
    rw [ValueOp.call, ValueOp.onList, if_pos hkeeps.1, bind_pure_snd, h.remove_eq _ (by omega), ← herase]
    exact hloses
  | removeAt index =>
    rw [ValueOp.Keeps, Classical.not_imp, h.size_eq] at hkeeps
    obtain ⟨fresh, hloses⟩ := removeAtValues_loses h hlist hkeeps.1 hkeeps.2
    refine ⟨fresh, ?_⟩
    rw [ValueOp.call, ValueOp.onList, if_pos hkeeps.1, bind_pure_snd]
    exact hloses
  | get index => exact absurd trivial hkeeps
  | clear => exact absurd trivial hkeeps

/-- The calls on a vector of values, each with what `new` puts into an array that it makes. -/
def callValues [DecidableEq Value] (c : ValueOp Value × (Nat → Value)) (v : Vector Value) :
    Except Thrown (Option Value) × Vector Value :=
  c.1.call c.2 v

def callValueList [DecidableEq Value] (c : ValueOp Value × (Nat → Value)) (l : List Value) :
    Except Thrown (Option Value) × List Value :=
  c.1.onList l

theorem newValues_holds (fresh : Nat → Value) {initial_size : Nat} (hinit : initial_size + 32 < 2 ^ 32) :
    ∃ v, resizeValues fresh initial_size (empty initial_size) = (.ok (), v) ∧ Holds v [] ∧
      v.init_size = initial_size := by
  have hempty : Stores (empty initial_size : Vector Value) [] := ⟨rfl, rfl, rfl, nofun⟩
  by_cases hzero : initial_size = 0
  · subst hzero
    exact ⟨_, rfl, ⟨hempty, rfl⟩, rfl⟩
  · obtain ⟨v, hv, hr⟩ := resizeValues_spec fresh hempty (Nat.zero_le _) (by omega : 0 < initial_size)
      (by simp only [empty, max_self]; omega)
    have hkept : kept fresh (empty initial_size) [] initial_size = [] :=
      List.eq_nil_of_length_eq_zero (length_kept fresh _ _ _)
    rw [hkept] at hr
    exact ⟨v, hv, ⟨hr.stores, hr.end_pos_eq⟩, hr.init_size_eq⟩

end Vector

end Srl
