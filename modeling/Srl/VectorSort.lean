import Srl.VectorHolds
import Mathlib.Data.List.Rotate
import Mathlib.Order.Defs.LinearOrder

namespace Srl

open Session

namespace Vector

variable {α : Type}

/-- `n - 1` as a `uint32`. -/
def pred (n : Nat) : Nat := (n + 2 ^ 32 - 1) % 2 ^ 32

theorem pred_eq {n : Nat} (hn : 0 < n) (hfew : n < 2 ^ 32) : pred n = n - 1 := by
  unfold pred
  omega

def swap (a b : Nat) : Call α Unit := do
  let t ← read a
  write a (← read b)
  write b t

section

variable [LinearOrder α]

/-- The loop of `partition`. -/
def partitionLoop (pivotValue : α) (right : Nat) : Nat → Nat → Nat → Call α Nat
  | 0, _, index => pure index
  | fuel + 1, i, index =>
    if i < right then do
      if (← read i) ≤ pivotValue then do
        if index ≠ i then swap index i else pure ()
        if right ≤ index then pure index else partitionLoop pivotValue right fuel (i + 1) (index + 1)
      else partitionLoop pivotValue right fuel (i + 1) index
    else pure index

def partition (left right pivot : Nat) : Call α Nat := do
  let pivotValue ← read pivot
  swap pivot right
  let index ← partitionLoop pivotValue right (right - left) left left
  swap right index
  pure index

/-- `quicksort`. It goes on with both sides only where the pivot is inside of the range, which makes them
smaller. -/
def quicksort (left right : Nat) : Call α Unit :=
  if left < pred right then do
    let pivot ← partition left right left
    if _h : left < pivot ∧ pivot < right then do
      quicksort left (pivot - 1)
      quicksort (pivot + 1) right
    else pure ()
  else pure ()
termination_by right - left

theorem quicksort_eq (left right : Nat) : (quicksort left right : Call α Unit) =
    if left < pred right then do
      let pivot ← partition left right left
      if _h : left < pivot ∧ pivot < right then do
        quicksort left (pivot - 1)
        quicksort (pivot + 1) right
      else pure ()
    else pure () :=
  quicksort.eq_def left right

/-- `sort`, whose parameter has no reader. -/
def sort : Call α Unit := do quicksort 0 (pred (← MonadState.get).size)

/-- A round of `partition`: an element that is not above the pivot changes places with the first one that is. -/
def partRound (p : α) (parts : List α × List α) (x : α) : List α × List α :=
  if x ≤ p then (parts.1 ++ [x], parts.2.rotate 1) else (parts.1, parts.2 ++ [x])

/-- The elements up to the pivot `p` and those above it, as `partition` leaves them before it puts the pivot
between them. -/
def parted (p : α) (xs : List α) : List α × List α := xs.foldl (partRound p) ([], [])

/-- The lists that `sort` sorts: every part at which the recursion ends is in order. It ends at one or two
elements, and where the pivot `p` is below all others or not below any. -/
inductive Settles : List α → Prop
  | two {a b : α} (h : a ≤ b) : Settles [a, b]
  | least {p : α} {xs : List α} (hp : ∀ x ∈ xs, p < x) (hs : xs.Pairwise (· ≤ ·)) : Settles (p :: xs)
  | greatest {p z : α} {mid : List α} (hmid : mid ≠ []) (hp : ∀ x ∈ z :: mid, x ≤ p)
      (hs : (z :: mid).Pairwise (· ≤ ·)) : Settles (p :: (mid ++ [z]))
  | split {p z : α} {mid : List α} (hlow : (parted p (z :: mid)).1 ≠ []) (hhigh : (parted p (z :: mid)).2 ≠ [])
      (low : Settles (parted p (z :: mid)).1) (high : Settles ((parted p (z :: mid)).2.rotate 1)) :
      Settles (p :: (mid ++ [z]))

end

variable {v : Vector α} {pre post xs highs lows : List α} {x y p z : α} {i j : Nat}

theorem read_cells (h : v.cells[i]? = some x) : read i v = (.ok x, v) := by
  unfold read
  rw [get_bind, h]
  rfl

/-- The vector with other cells. -/
def withCells (v : Vector α) (cells : List α) : Vector α := { v with array := some cells }

@[simp] theorem cells_withCells (v : Vector α) (cells : List α) : (v.withCells cells).cells = cells := rfl

@[simp] theorem withCells_withCells (v : Vector α) (cells cells' : List α) :
    (v.withCells cells).withCells cells' = v.withCells cells' := rfl

theorem swap_eq (hx : v.cells[i]? = some x) (hy : v.cells[j]? = some y) :
    swap i j v = (.ok (), v.withCells ((v.cells.set i y).set j x)) := by
  obtain ⟨hi, -⟩ := List.getElem?_eq_some_iff.mp hx
  obtain ⟨hj, -⟩ := List.getElem?_eq_some_iff.mp hy
  unfold swap
  rw [bind_ok (read_cells hx), bind_ok (read_cells hy), bind_ok (write_eq hi)]
  exact write_eq (by show j < (v.cells.set i y).length; rw [List.length_set]; exact hj)

theorem getElem?_middle : (pre ++ x :: post)[pre.length]? = some x := by
  simp

theorem set_middle : (pre ++ x :: post).set pre.length y = pre ++ y :: post := by
  simp

/-- A swap of the elements before and behind `xs`, in either order. -/
theorem swap_ends (hv : v.array = some (pre ++ x :: (xs ++ y :: post))) :
    swap pre.length (pre.length + xs.length + 1) v = (.ok (), v.withCells (pre ++ y :: (xs ++ x :: post))) ∧
      swap (pre.length + xs.length + 1) pre.length v = (.ok (), v.withCells (pre ++ y :: (xs ++ x :: post))) := by
  have hcells : v.cells = pre ++ x :: (xs ++ y :: post) := by rw [cells, hv, Option.getD_some]
  have hsplit : ∀ w u : α, pre ++ w :: (xs ++ u :: post) = (pre ++ w :: xs) ++ u :: post := by simp
  have hlen : ∀ w : α, (pre ++ w :: xs).length = pre.length + xs.length + 1 := by
    intro w
    rw [List.length_append, List.length_cons, Nat.add_assoc]
  have hx : v.cells[pre.length]? = some x := by rw [hcells, getElem?_middle]
  have hy : v.cells[pre.length + xs.length + 1]? = some y := by rw [hcells, hsplit, ← hlen x, getElem?_middle]
  have hfar : ∀ w u t : α, (pre ++ w :: (xs ++ u :: post)).set (pre.length + xs.length + 1) t =
      pre ++ w :: (xs ++ t :: post) := by
    intro w u t
    rw [hsplit, ← hlen w, set_middle, ← hsplit]
  rw [swap_eq hx hy, swap_eq hy hx, hcells, set_middle, hfar, hfar, set_middle]
  exact ⟨rfl, rfl⟩

theorem swap_self (hv : v.array = some (pre ++ x :: post)) : swap pre.length pre.length v = (.ok (), v) := by
  have hcells : v.cells = pre ++ x :: post := by rw [cells, hv, Option.getD_some]
  have hx : v.cells[pre.length]? = some x := by rw [hcells, getElem?_middle]
  rw [swap_eq hx hx, hcells, set_middle, set_middle, withCells, ← hv]

section

variable [LinearOrder α]

/-- The loop of `partition` over the rest of its range, with the elements before it already parted. -/
theorem partitionLoop_spec {fuel right : Nat} (hv : v.array = some (pre ++ (lows ++ (highs ++ (xs ++ post)))))
    (hright : right = pre.length + lows.length + highs.length + xs.length) (hfuel : fuel = xs.length) :
    ∃ lows' highs', xs.foldl (partRound p) (lows, highs) = (lows', highs') ∧
      partitionLoop p right fuel (pre.length + lows.length + highs.length) (pre.length + lows.length) v =
        (.ok (pre.length + lows'.length), v.withCells (pre ++ (lows' ++ (highs' ++ post)))) := by
  subst hfuel
  induction xs generalizing v lows highs with
  | nil =>
    refine ⟨lows, highs, rfl, ?_⟩
    rw [List.nil_append] at hv
    rw [List.length_nil, partitionLoop, withCells, ← hv]
    rfl
  | cons x xs ih =>
    have hcells : v.cells = (pre ++ lows ++ highs) ++ x :: (xs ++ post) := by
      rw [cells, hv, Option.getD_some]
      simp
    have hx : v.cells[pre.length + lows.length + highs.length]? = some x := by
      rw [hcells, ← List.length_append, ← List.length_append]
      exact getElem?_middle
    have hlt : pre.length + lows.length + highs.length < right := by
      rw [hright, List.length_cons]
      omega
    rw [List.length_cons, partitionLoop, if_pos hlt, bind_ok (read_cells hx), List.foldl_cons, partRound]
    by_cases hle : x ≤ p
    · rw [if_pos hle, if_pos hle]
      have hstep : ∀ w : Vector α, w.array = some (pre ++ ((lows ++ [x]) ++ (highs.rotate 1 ++ (xs ++ post)))) →
          (∀ cells, w.withCells cells = v.withCells cells) →
          ∃ lows' highs', xs.foldl (partRound p) (lows ++ [x], highs.rotate 1) = (lows', highs') ∧
            (if right ≤ pre.length + lows.length then pure (pre.length + lows.length)
              else partitionLoop p right xs.length (pre.length + lows.length + highs.length + 1)
                (pre.length + lows.length + 1) : Call α Nat) w =
              (.ok (pre.length + lows'.length), v.withCells (pre ++ (lows' ++ (highs' ++ post)))) := by
        intro w hw hsame
        obtain ⟨lows', highs', hfold, hrun⟩ := ih hw (by
          rw [hright, List.length_append, List.length_rotate, List.length_cons, List.length_singleton]
          omega)
        refine ⟨lows', highs', hfold, ?_⟩
        rw [if_neg (by omega), ← hsame]
        rw [List.length_append, List.length_singleton, List.length_rotate] at hrun
        rw [← hrun]
        congr 1
        omega
      cases highs with
      | nil =>
        rw [List.length_nil, if_neg (by simp)]
        exact hstep v (by rw [hv]; simp) fun _ => rfl
      | cons g gs =>
        have hends : v.array = some ((pre ++ lows) ++ g :: (gs ++ x :: (xs ++ post))) := by
          rw [hv]
          simp
        have hswap := (swap_ends hends).1
        rw [List.length_append, Nat.add_assoc (pre.length + lows.length)] at hswap
        rw [List.length_cons, if_pos (by omega), bind_ok hswap]
        exact hstep _ (by simp [withCells]) fun _ => rfl
    · rw [if_neg hle, if_neg hle]
      have hv' : v.array = some (pre ++ (lows ++ ((highs ++ [x]) ++ (xs ++ post)))) := by
        rw [hv]
        simp
      obtain ⟨lows', highs', hfold, hrun⟩ := ih hv' (by
        rw [hright, List.length_append, List.length_cons, List.length_singleton]
        omega)
      refine ⟨lows', highs', hfold, ?_⟩
      rwa [List.length_append, List.length_singleton, ← Nat.add_assoc] at hrun

/-- The rounds of `partition` sort the elements into those up to the pivot and those above it. -/
theorem foldl_partRound {lows' highs' : List α} (h : xs.foldl (partRound p) (lows, highs) = (lows', highs')) :
    (lows' ++ highs').Perm (lows ++ highs ++ xs) ∧ ((∀ x ∈ lows, x ≤ p) → ∀ x ∈ lows', x ≤ p) ∧
      ((∀ x ∈ highs, p < x) → ∀ x ∈ highs', p < x) := by
  induction xs generalizing lows highs with
  | nil =>
    cases h
    exact ⟨by rw [List.append_nil], id, id⟩
  | cons x xs ih =>
    rw [List.foldl_cons, partRound] at h
    split at h
    next hle =>
      obtain ⟨hperm, hlow, hhigh⟩ := ih h
      refine ⟨hperm.trans ?_, fun hl => hlow ?_, fun hh => hhigh ?_⟩
      · have hrotate := List.rotate_perm highs 1
        rw [List.append_assoc, List.append_assoc, List.append_assoc]
        refine List.Perm.append_left lows ?_
        rw [List.singleton_append]
        exact (List.perm_middle.symm.trans (hrotate.append_right _))
      · intro y hy
        rcases List.mem_append.mp hy with hy | hy
        · exact hl y hy
        · rwa [List.mem_singleton.mp hy]
      · intro y hy
        exact hh y (List.mem_rotate.mp hy)
    next hle =>
      obtain ⟨hperm, hlow, hhigh⟩ := ih h
      refine ⟨?_, hlow, fun hh => hhigh ?_⟩
      · rwa [List.append_assoc lows, List.append_assoc highs, List.singleton_append, ← List.append_assoc] at hperm
      · intro y hy
        rcases List.mem_append.mp hy with hy | hy
        · exact hh y hy
        · rw [List.mem_singleton.mp hy]
          exact lt_of_not_ge hle

theorem parted_spec (h : parted p xs = (lows, highs)) :
    (lows ++ highs).Perm xs ∧ (∀ x ∈ lows, x ≤ p) ∧ ∀ x ∈ highs, p < x := by
  obtain ⟨hperm, hlow, hhigh⟩ := foldl_partRound h
  exact ⟨hperm, hlow nofun, hhigh nofun⟩

theorem partition_spec {mid : List α} (hv : v.array = some (pre ++ p :: (mid ++ z :: post))) :
    ∃ lows highs, parted p (z :: mid) = (lows, highs) ∧
      partition pre.length (pre.length + mid.length + 1) pre.length v =
        (.ok (pre.length + lows.length), v.withCells (pre ++ (lows ++ p :: (highs.rotate 1 ++ post)))) := by
  have hcells : v.cells = pre ++ p :: (mid ++ z :: post) := by rw [cells, hv, Option.getD_some]
  have hp : v.cells[pre.length]? = some p := by rw [hcells, getElem?_middle]
  have hswap := (swap_ends hv).1
  have harray : (v.withCells (pre ++ z :: (mid ++ p :: post))).array =
      some (pre ++ ([] ++ ([] ++ ((z :: mid) ++ p :: post)))) := rfl
  have hright : pre.length + mid.length + 1 =
      pre.length + ([] : List α).length + ([] : List α).length + (z :: mid).length := rfl
  obtain ⟨lows, highs, hfold, hloop⟩ := partitionLoop_spec (p := p) harray hright rfl
  have hlen := (parted_spec hfold).1.length_eq
  rw [List.length_append, List.length_cons] at hlen
  refine ⟨lows, highs, hfold, ?_⟩
  unfold partition
  rw [bind_ok (read_cells hp), bind_ok hswap, show pre.length + mid.length + 1 - pre.length = mid.length + 1 by omega]
  simp only [List.length_nil, List.length_cons, Nat.add_zero, withCells_withCells] at hloop
  rw [bind_ok hloop]
  have hright : pre.length + mid.length + 1 = pre.length + lows.length + highs.length := by omega
  rw [hright]
  cases highs with
  | nil =>
    have hself := @swap_self _ (v.withCells (pre ++ (lows ++ p :: post))) (pre ++ lows) post p (by simp [withCells])
    rw [List.length_append] at hself
    rw [List.length_nil, Nat.add_zero, List.nil_append, bind_ok hself]
    rfl
  | cons g gs =>
    have hends : (v.withCells (pre ++ (lows ++ (g :: gs ++ p :: post)))).array =
        some ((pre ++ lows) ++ g :: (gs ++ p :: post)) := by simp [withCells]
    have hback := (swap_ends hends).2
    rw [List.length_append] at hback
    rw [List.length_cons, ← Nat.add_assoc, bind_ok hback]
    simp [withCells]
    rfl

theorem foldl_partRound_above (h : ∀ x ∈ xs, p < x) : xs.foldl (partRound p) ([], highs) = ([], highs ++ xs) := by
  induction xs generalizing highs with
  | nil => rw [List.append_nil]; rfl
  | cons x xs ih =>
    rw [List.foldl_cons, partRound, if_neg (not_le_of_gt (h x List.mem_cons_self)),
      ih fun y hy => h y (List.mem_cons_of_mem x hy), List.append_assoc, List.singleton_append]

theorem foldl_partRound_below (h : ∀ x ∈ xs, x ≤ p) : xs.foldl (partRound p) (lows, []) = (lows ++ xs, []) := by
  induction xs generalizing lows with
  | nil => rw [List.append_nil]; rfl
  | cons x xs ih =>
    rw [List.foldl_cons, partRound, if_pos (h x List.mem_cons_self), List.rotate_nil,
      ih fun y hy => h y (List.mem_cons_of_mem x hy), List.append_assoc, List.singleton_append]

theorem parted_above (h : ∀ x ∈ xs, p < x) : parted p xs = ([], xs) := foldl_partRound_above h

theorem parted_below (h : ∀ x ∈ xs, x ≤ p) : parted p xs = (xs, []) := foldl_partRound_below h

/-- The recursion of `quicksort` in terms of its outcome. -/
theorem settles_iff {mid : List α} (hmid : mid ≠ []) (h : parted p (z :: mid) = (lows, highs)) :
    Settles (p :: (mid ++ [z])) ↔
      if lows ≠ [] ∧ highs ≠ [] then Settles lows ∧ Settles (highs.rotate 1)
      else (lows ++ p :: highs.rotate 1).Pairwise (· ≤ ·) := by
  obtain ⟨hperm, hlow, hhigh⟩ := parted_spec h
  constructor
  · intro hs
    generalize hl : p :: (mid ++ [z]) = l at hs
    cases hs with
    | two hab =>
      have hlen := congrArg List.length hl
      have hpos := List.length_pos_of_ne_nil hmid
      simp only [List.length_cons, List.length_append, List.length_nil] at hlen
      omega
    | @least p' xs hp hs =>
      obtain ⟨rfl, rfl⟩ := List.cons.inj hl
      have hall : ∀ x ∈ z :: mid, p < x := fun x hx => hp x (by simpa [or_comm] using hx)
      cases (parted_above hall).symm.trans h
      rw [if_neg (by simp)]
      exact List.pairwise_cons.mpr ⟨fun x hx => le_of_lt (hhigh x (List.mem_rotate.mp hx)), by simpa using hs⟩
    | @greatest p' z' mid' hmid' hp hs =>
      obtain ⟨rfl, htail⟩ := List.cons.inj hl
      obtain ⟨rfl, hz⟩ := List.append_inj' htail rfl
      cases hz
      cases (parted_below hp).symm.trans h
      rw [if_neg (by simp)]
      refine List.pairwise_append.mpr ⟨hs, List.pairwise_singleton _ _, fun x hx y hy => ?_⟩
      rw [List.mem_singleton.mp hy]
      exact hp x hx
    | @split p' z' mid' hlow' hhigh' low high =>
      obtain ⟨rfl, htail⟩ := List.cons.inj hl
      obtain ⟨rfl, hz⟩ := List.append_inj' htail rfl
      cases hz
      rw [h] at hlow' hhigh' low high
      rw [if_pos ⟨hlow', hhigh'⟩]
      exact ⟨low, high⟩
  · intro hs
    by_cases hboth : lows ≠ [] ∧ highs ≠ []
    · rw [if_pos hboth] at hs
      refine .split ?_ ?_ ?_ ?_ <;> rw [h]
      exacts [hboth.1, hboth.2, hs.1, hs.2]
    · rw [if_neg hboth] at hs
      by_cases hnil : lows = []
      · subst hnil
        have hall : ∀ x ∈ z :: mid, p < x := fun x hx => hhigh x (hperm.mem_iff.mpr hx)
        cases (parted_above hall).symm.trans h
        refine .least (fun x hx => hall x (by simpa [or_comm] using hx)) ?_
        simpa using (List.pairwise_cons.mp hs).2
      · obtain rfl : highs = [] := by
          by_contra hne
          exact hboth ⟨hnil, hne⟩
        have hall : ∀ x ∈ z :: mid, x ≤ p := fun x hx => hlow x (by
          rw [List.append_nil] at hperm
          exact hperm.mem_iff.mpr hx)
        cases (parted_below hall).symm.trans h
        exact .greatest hmid hall (List.pairwise_append.mp hs).1

theorem settles_pair {a b : α} : Settles [a, b] ↔ a ≤ b := by
  constructor
  · intro hs
    generalize hl : [a, b] = l at hs
    cases hs with
    | two hab =>
      cases hl
      exact hab
    | least hp hs =>
      cases hl
      exact le_of_lt (hp b List.mem_cons_self)
    | @greatest p z mid hmid hp hs =>
      have hlen := congrArg List.length hl
      have hpos := List.length_pos_of_ne_nil hmid
      simp only [List.length_cons, List.length_append, List.length_nil] at hlen
      omega
    | @split p z mid hlow hhigh low high =>
      have hlen := congrArg List.length hl
      cases hparted : parted p (z :: mid) with
      | mk lows highs =>
        have hparts := (parted_spec hparted).1.length_eq
        rw [hparted] at hlow hhigh
        have hlow := List.length_pos_of_ne_nil hlow
        have hhigh := List.length_pos_of_ne_nil hhigh
        simp only [List.length_cons, List.length_append, List.length_nil] at *
        omega
  · exact .two

theorem partition_single (hv : v.array = some (pre ++ p :: post)) :
    partition pre.length pre.length pre.length v = (.ok pre.length, v) := by
  have hcells : v.cells = pre ++ p :: post := by rw [cells, hv, Option.getD_some]
  have hp : v.cells[pre.length]? = some p := by rw [hcells, getElem?_middle]
  have hself := swap_self hv
  unfold partition
  rw [bind_ok (read_cells hp), bind_ok hself, Nat.sub_self, partitionLoop]
  show (swap pre.length pre.length >>= _) v = _
  rw [bind_ok hself]
  rfl

/-- Both sides around the pivot are in order just if the whole is. -/
theorem pairwise_around (hlow : ∀ x ∈ lows, x ≤ p) (hhigh : ∀ x ∈ highs, p < x) :
    (lows ++ p :: highs).Pairwise (· ≤ ·) ↔ lows.Pairwise (· ≤ ·) ∧ highs.Pairwise (· ≤ ·) := by
  rw [List.pairwise_append, List.pairwise_cons]
  constructor
  · rintro ⟨hlows, ⟨-, hhighs⟩, -⟩
    exact ⟨hlows, hhighs⟩
  · rintro ⟨hlows, hhighs⟩
    refine ⟨hlows, ⟨fun x hx => le_of_lt (hhigh x hx), hhighs⟩, fun x hx y hy => ?_⟩
    rcases List.mem_cons.mp hy with rfl | hy
    · exact hlow x hx
    · exact le_trans (hlow x hx) (le_of_lt (hhigh y hy))

/-- What `quicksort` makes of the cells from `left` to `right`. -/
theorem quicksort_spec {seg : List α} (hne : seg ≠ []) (hv : v.array = some (pre ++ (seg ++ post)))
    (hfew : pre.length + seg.length < 2 ^ 32) :
    ∃ seg', quicksort pre.length (pre.length + seg.length - 1) v = (.ok (), v.withCells (pre ++ (seg' ++ post))) ∧
      seg'.Perm seg ∧ (seg'.Pairwise (· ≤ ·) ↔ Settles seg) := by
  induction hn : seg.length using Nat.strong_induction_on generalizing seg v pre post with
  | h n ih =>
  subst hn
  obtain ⟨p, xs, rfl⟩ := List.exists_cons_of_ne_nil hne
  have hsame : v.withCells (pre ++ (p :: xs ++ post)) = v := by rw [withCells, ← hv]
  rcases List.eq_nil_or_concat xs with rfl | ⟨mid, z, rfl⟩
  · refine ⟨[p], ?_, .refl _, iff_of_true (List.pairwise_singleton _ _) (.least nofun .nil)⟩
    rw [hsame, List.length_singleton, Nat.add_sub_cancel, quicksort_eq]
    split
    next =>
      rw [bind_ok (partition_single hv), dif_neg (fun h => Nat.lt_irrefl _ h.1)]
      rfl
    next => rfl
  · rw [List.concat_eq_append] at *
    have hlen : (p :: (mid ++ [z])).length = mid.length + 2 := by simp
    rw [hlen] at hfew ⊢
    have hright : pred (pre.length + mid.length + 1) = pre.length + mid.length := by
      exact pred_eq (Nat.succ_pos _) (by omega)
    show ∃ seg', quicksort pre.length (pre.length + mid.length + 1) v = _ ∧ _
    by_cases hmid : mid = []
    · subst hmid
      refine ⟨[p, z], ?_, .refl _, by rw [List.pairwise_pair]; exact settles_pair.symm⟩
      rw [quicksort_eq, hright, if_neg (by simp)]
      exact congrArg (Prod.mk (Except.ok ())) hsame.symm
    · have hpos := List.length_pos_of_ne_nil hmid
      have harray : v.array = some (pre ++ p :: (mid ++ z :: post)) := by
        rw [hv]
        simp
      obtain ⟨lows, highs, hparted, hrun⟩ := partition_spec harray
      obtain ⟨hperm, hlow, hhigh⟩ := parted_spec hparted
      have hlen := hperm.length_eq
      rw [List.length_append, List.length_cons] at hlen
      have hwhole : (lows ++ p :: highs).Perm (p :: (mid ++ [z])) :=
        List.perm_middle.trans ((hperm.trans (List.perm_append_singleton z mid).symm).cons p)
      have hinside : (pre.length < pre.length + lows.length ∧ pre.length + lows.length < pre.length + mid.length + 1) ↔
          lows ≠ [] ∧ highs ≠ [] := by
        rw [← List.length_pos_iff, ← List.length_pos_iff]
        omega
      rw [quicksort_eq, hright, if_pos (by omega), bind_ok hrun]
      by_cases hboth : lows ≠ [] ∧ highs ≠ []
      · have hhighs := List.length_pos_of_ne_nil hboth.2
        have hlows := List.length_pos_of_ne_nil hboth.1
        have hrotate : (highs.rotate 1).length = highs.length := List.length_rotate highs 1
        obtain ⟨lows', hleft, hpl, hsl⟩ := ih lows.length (by omega) hboth.1
          (show (v.withCells (pre ++ (lows ++ p :: (highs.rotate 1 ++ post)))).array = _ from rfl) (by omega) rfl
        have hpre : (pre ++ lows' ++ [p]).length = pre.length + lows.length + 1 := by
          rw [List.length_append, List.length_append, hpl.length_eq, List.length_singleton]
        have hbehind : (v.withCells (pre ++ (lows' ++ p :: (highs.rotate 1 ++ post)))).array =
            some ((pre ++ lows' ++ [p]) ++ (highs.rotate 1 ++ post)) := by simp [withCells]
        obtain ⟨highs', hgreater, hph, hsh⟩ := ih (highs.rotate 1).length (by omega)
          (List.ne_nil_of_length_pos (by omega)) hbehind (by omega) rfl
        rw [hpre, hrotate, show pre.length + lows.length + 1 + highs.length - 1 = pre.length + mid.length + 1 by omega]
          at hgreater
        refine ⟨lows' ++ p :: highs', ?_, ?_, ?_⟩
        · rw [dif_pos (hinside.mpr hboth), bind_ok hleft, withCells_withCells, hgreater]
          simp [withCells]
        · have hph := (hph.trans (List.rotate_perm highs 1)).cons p
          exact ((hpl.append_right _).trans (hph.append_left lows)).trans hwhole
        · rw [settles_iff hmid hparted, if_pos hboth, ← hsl, ← hsh]
          exact pairwise_around (fun x hx => hlow x (hpl.mem_iff.mp hx))
            fun x hx => hhigh x (List.mem_rotate.mp (hph.mem_iff.mp hx))
      · rw [dif_neg (fun h => hboth (hinside.mp h))]
        refine ⟨lows ++ p :: highs.rotate 1, ?_, ?_, ?_⟩
        · rw [List.append_assoc lows]
          rfl
        · exact (((List.rotate_perm highs 1).cons p).append_left lows).trans hwhole
        · rw [settles_iff hmid hparted, if_neg hboth]

theorem sort_eq (v : Vector α) : sort v = quicksort 0 (pred v.size) v := by
  unfold sort
  rw [get_bind]

theorem sort_spec (hne : xs ≠ []) (hfew : xs.length < 2 ^ 32) (hs : v.size = xs.length)
    (hv : v.array = some (xs ++ post)) :
    ∃ xs', sort v = (.ok (), v.withCells (xs' ++ post)) ∧ xs'.Perm xs ∧ (xs'.Pairwise (· ≤ ·) ↔ Settles xs) := by
  have hv' : v.array = some ([] ++ (xs ++ post)) := hv
  obtain ⟨xs', hrun, hrest⟩ := quicksort_spec hne hv' (by rw [List.length_nil]; omega)
  refine ⟨xs', ?_, hrest⟩
  have hlast : pred v.size = 0 + xs.length - 1 := by
    rw [hs, pred_eq (List.length_pos_of_ne_nil hne) hfew, Nat.zero_add]
  rw [List.length_nil, List.nil_append, ← hlast] at hrun
  rw [sort_eq]
  exact hrun

theorem not_settles_nil : ¬Settles ([] : List α) := by
  intro h
  generalize hl : ([] : List α) = l at h
  cases h <;> cases hl

omit [LinearOrder α] in
theorem read_fault (h : v.cells[i]? = none) : read i v = (.error .fault, v) := by
  unfold read
  rw [get_bind, h]
  rfl

/-- Without elements `quicksort` starts on the indices from 0 to 4294967295. -/
theorem sort_empty (hs : v.size = 0) (hfew : v.cells.length < 2 ^ 32) : sort v = (.error .fault, v) := by
  have hlast : v.cells[pred 0]? = none := by
    refine List.getElem?_eq_none ?_
    unfold pred
    omega
  have hpart : partition 0 (pred 0) 0 v = (.error .fault, v) := by
    unfold partition
    cases hcell : v.cells[0]? with
    | none => exact bind_error (read_fault hcell)
    | some x =>
      rw [bind_ok (read_cells hcell)]
      refine bind_error ?_
      unfold swap
      rw [bind_ok (read_cells hcell)]
      exact bind_error (read_fault hlast)
  have hrange : 0 < pred (pred 0) := by
    unfold pred
    omega
  rw [sort_eq, hs, quicksort_eq, if_pos hrange]
  exact bind_error hpart

theorem settles_three : Settles [2, 3, 1] := by
  have hparted : parted 2 [1, 3] = ([1], [3]) := by decide
  have hone : ∀ n : Nat, Settles [n] := fun n =>
    .least (fun _ hx => absurd hx List.not_mem_nil) List.Pairwise.nil
  exact (settles_iff (List.cons_ne_nil 3 []) hparted).mpr
    (by rw [if_pos (by decide)]; exact ⟨hone 1, hone 3⟩)

end

end Vector

end Srl
