import Srl.VectorPointers

namespace Srl

open Session

namespace Vector

/-- What ends a call with a loop over a vector that does not return. -/
inductive Stop
  | thrown (e : Thrown)
  | unfinished
deriving DecidableEq

variable {σ α β Value : Type}

/-- A call on a vector that is a part of the state. -/
def on (view : σ → Vector α) (put : Vector α → σ → σ) (x : Call α β) : Method σ Stop β := fun s =>
  match x (view s) with
  | (.ok b, v) => (.ok b, put v s)
  | (.error e, v) => (.error (.thrown e), put v s)

/-- The positions of `++iter` and of `--iter`, which wrap. -/
def forth (pos : Nat) : Nat := (pos + 1) % 2 ^ 32

def back (pos : Nat) : Nat := (pos + 2 ^ 32 - 1) % 2 ^ 32

/-- A pointer that is followed; there is nothing behind `NULL`. -/
def follow (p : Option Value) : Method σ Stop Value :=
  match p with
  | none => throw (.thrown .fault)
  | some p => pure p

variable {view : σ → Vector α} {put : Vector α → σ → σ} {x : Call α β} {b : β} {e : Thrown} {s : σ} {v' : Vector α}

theorem on_ok (h : x (view s) = (.ok b, v')) : on view put x s = (.ok b, put v' s) := by
  unfold on
  rw [h]

theorem on_error (h : x (view s) = (.error e, v')) : on view put x s = (.error (.thrown e), put v' s) := by
  unfold on
  rw [h]

theorem back_forth {pos : Nat} (h : pos < 2 ^ 32) : forth (back pos) = pos := by
  unfold forth back
  omega

/-- The vector stores pointers to `l`, none of them `NULL`, and its sizes stay in 32 bits. -/
structure Points (v : Vector (Option Value)) (l : List Value) : Prop where
  holds : Holds v (l.map some)
  few : l.length + 32 < 2 ^ 32
  init_few : v.init_size + 32 < 2 ^ 32

variable {v w : Vector (Option Value)} {l front back : List Value} {a : Value}

namespace Points

theorem end_eq (h : Points v l) : v.end_pos = l.length := by
  rw [h.holds.end_eq, List.length_map]

theorem size_eq (h : Points v l) : v.size = l.length := by
  rw [h.holds.size_eq, List.length_map]

theorem get_eq (h : Points v (front ++ a :: back)) : Vector.get front.length v = (.ok (some a), v) := by
  refine h.holds.checked_eq _ ?_
  rw [List.map_append, List.getElem?_append_right (by rw [List.length_map]), List.length_map, Nat.sub_self]
  rfl

theorem get_throws (h : Points v l) {pos : Nat} (hpos : l.length ≤ pos) :
    Vector.get pos v = (.error (indexOutOfBounds "index is bigger then the size of the list (get)"), v) :=
  h.holds.checked_throws _ (by rw [List.length_map]; exact hpos)

theorem erase_spec (fresh : Nat → Option Value) (h : Points v (front ++ a :: back)) :
    ∃ v', removeAt (resizePointers fresh) front.length v = (.ok (), v') ∧ Points v' (front ++ back) := by
  have hlen : (front ++ a :: back).length = front.length + back.length + 1 := by
    rw [List.length_append, List.length_cons]
    omega
  have hfew := h.few
  obtain ⟨v', hrun, hholds, hinit⟩ := removeAtPointers_spec fresh h.holds (i := front.length)
    (by rw [List.length_map]; exact hfew) h.init_few (by rw [List.length_map]; omega)
  refine ⟨v', hrun, ⟨?_, ?_, by rw [hinit]; exact h.init_few⟩⟩
  · rw [List.map_append, List.map_cons, List.eraseIdx_append_of_length_le (by rw [List.length_map]),
      List.length_map, Nat.sub_self] at hholds
    rw [List.map_append]
    exact hholds
  · rw [List.length_append]
    omega

theorem add_spec (fresh : Nat → Option Value) (h : Points v l) (hfew : l.length + 1 + 32 < 2 ^ 32) (a : Value) :
    ∃ v', add (resizePointers fresh) (some a) v = (.ok (), v') ∧ Points v' (l ++ [a]) := by
  have hinit := h.init_few
  have hlen : (l.map some).length = l.length := List.length_map _
  obtain ⟨v', hrun, hholds, hinit'⟩ := h.holds.add_spec rfl (by omega) (some a)
    (resizePointers_spec fresh h.holds.toStores (Nat.le_succ _) (Nat.succ_pos _) (by omega))
  refine ⟨v', hrun, ⟨?_, ?_, by rw [hinit']; exact hinit⟩⟩
  · rw [List.map_append]
    exact hholds
  · rw [List.length_append, List.length_singleton]
    exact hfew

theorem new_spec (fresh : Nat → Option Value) {initial_size : Nat} (hinit : initial_size + 32 < 2 ^ 32) :
    Points (resizePointers fresh initial_size (empty initial_size)).2 ([] : List Value) := by
  obtain ⟨v, hrun, hholds, hinit'⟩ := new_holds fresh hinit
  rw [hrun]
  exact ⟨hholds, by rw [List.length_nil]; decide, by rw [hinit']; exact hinit⟩

theorem unique {l' : List Value} (h : Points v l) (h' : Points v l') : l = l' :=
  List.map_injective_iff.mpr (Option.some_injective Value) (h.holds.unique h'.holds.toStores)

end Points

theorem exists_points (hl : l.length + 32 < 2 ^ 32) : ∃ v : Vector (Option Value), Points v l := by
  refine ⟨⟨l.length, 0, l.length + 1, some (l.map some ++ [none]), l.length⟩, ⟨⟨?_, ?_, ?_, ?_⟩, ?_⟩, hl, by simp⟩
  · rw [List.length_map]
  · exact List.take_left' (List.length_map ..)
  · rw [cells, Option.getD_some, List.length_append, List.length_map, List.length_singleton]
  · exact fun _ => Nat.lt_succ_self _
  · rw [List.length_map]

end Vector

end Srl
