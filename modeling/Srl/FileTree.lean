import Srl.KeyedList
import Mathlib.Data.List.Infix
import Mathlib.Data.List.Nodup
import Mathlib.Order.Basic

/-- What has names below it, and what has none. -/
inductive FileTree.Node (D L : Type)
  | dir (mode : D)
  | leaf (item : L)
deriving DecidableEq

/-- A tree of files: each entry under its path, the names from the root on. -/
structure FileTree (N D L : Type) [DecidableEq N] where
  entries : List (List N × FileTree.Node D L)
  distinct : KeyedList.Distinct id entries
  rooted : ∃ d, ([], .dir d) ∈ entries
  closed : ∀ p n x, (p ++ [n], x) ∈ entries → ∃ d, (p, .dir d) ∈ entries

namespace FileTree

variable {N D L : Type} [DecidableEq N] {t t' : FileTree N D L} {p q r : List N} {n : N} {x y : Node D L}

def node (t : FileTree N D L) (p : List N) : Option (Node D L) := KeyedList.lookup id t.entries p

def isDir (t : FileTree N D L) (p : List N) : Bool :=
  match t.node p with
  | some (.dir _) => true
  | _ => false

/-- The name of an entry in the directory `p`. -/
def nameIn (p q : List N) : Option N := if q.dropLast = p then q.getLast? else none

/-- The names in a directory, in the order in which they are found. -/
def names (t : FileTree N D L) (p : List N) : List N := (t.entries.map Prod.fst).filterMap (nameIn p)

theorem node_iff : t.node p = some x ↔ (p, x) ∈ t.entries := by
  constructor
  · intro h
    obtain ⟨⟨q, y⟩, hfind, hy⟩ := Option.map_eq_some_iff.mp h
    have hq : q = p := by simpa using List.find?_some hfind
    subst hq
    subst hy
    exact List.mem_of_find?_eq_some hfind
  · intro h
    have hdistinct : KeyedList.Distinct id t.entries := t.distinct
    exact KeyedList.lookup_of_mem hdistinct h

theorem node_eq_none_iff : t.node p = none ↔ ∀ x, (p, x) ∉ t.entries := by
  constructor
  · intro h x hx
    rw [node_iff.mpr hx] at h
    cases h
  · intro h
    cases hp : t.node p with
    | none => rfl
    | some x => exact absurd (node_iff.mp hp) (h x)

theorem isDir_iff : t.isDir p = true ↔ ∃ d, t.node p = some (.dir d) := by
  unfold isDir
  cases t.node p with
  | none => simp
  | some x => cases x <;> simp

theorem isDir_nil (t : FileTree N D L) : t.isDir [] = true := by
  obtain ⟨d, hd⟩ := t.rooted
  exact isDir_iff.mpr ⟨d, node_iff.mpr hd⟩

theorem isDir_of_snoc (h : t.node (p ++ [n]) = some x) : t.isDir p = true := by
  obtain ⟨d, hd⟩ := t.closed p n x (node_iff.mp h)
  exact isDir_iff.mpr ⟨d, node_iff.mpr hd⟩

theorem isDir_of_append {r : List N} (h : t.node (p ++ r) = some x) (hr : r ≠ []) : t.isDir p = true := by
  induction r using List.reverseRecOn generalizing x with
  | nil => exact absurd rfl hr
  | append_singleton r n ih =>
    have hdir := isDir_of_snoc (t := t) (p := p ++ r) (n := n) (x := x) (by rwa [List.append_assoc])
    by_cases hr' : r = []
    · rwa [hr', List.append_nil] at hdir
    · obtain ⟨d, hd⟩ := isDir_iff.mp hdir
      exact ih hd hr'

theorem nameIn_eq_some_iff : nameIn p q = some n ↔ q = p ++ [n] := by
  unfold nameIn
  constructor
  · intro h
    split at h
    next hp =>
      obtain ⟨ys, rfl⟩ := List.getLast?_eq_some_iff.mp h
      rw [List.dropLast_concat] at hp
      rw [hp]
    next => cases h
  · rintro rfl
    rw [if_pos List.dropLast_concat, List.getLast?_concat]

theorem mem_names : n ∈ t.names p ↔ (t.node (p ++ [n])).isSome = true := by
  rw [Option.isSome_iff_exists, names, List.mem_filterMap]
  constructor
  · rintro ⟨q, hq, hn⟩
    obtain ⟨⟨_, x⟩, hx, rfl⟩ := List.mem_map.mp hq
    exact ⟨x, node_iff.mpr (nameIn_eq_some_iff.mp hn ▸ hx)⟩
  · rintro ⟨x, hx⟩
    exact ⟨p ++ [n], List.mem_map.mpr ⟨_, node_iff.mp hx, rfl⟩, nameIn_eq_some_iff.mpr rfl⟩

/-- What is below a directory is below one of its names. -/
theorem exists_name (hq : (t.node q).isSome = true) (hsub : p <+: q) (hne : q ≠ p) : ∃ n ∈ t.names p,
    p ++ [n] <+: q := by
  obtain ⟨r, rfl⟩ := hsub
  obtain ⟨x, hx⟩ := Option.isSome_iff_exists.mp hq
  cases r with
  | nil => exact absurd (List.append_nil p) hne
  | cons n r =>
    rw [List.append_cons] at hx
    refine ⟨n, mem_names.mpr ?_, r, by simp⟩
    by_cases hr : r = []
    · rw [hr, List.append_nil] at hx
      rw [hx]
      rfl
    · obtain ⟨d, hd⟩ := isDir_iff.mp (isDir_of_append hx hr)
      rw [hd]
      rfl

theorem nodup_names (t : FileTree N D L) (p : List N) : (t.names p).Nodup := by
  apply List.Nodup.filterMap
  · intro q q' n hq hq'
    rw [nameIn_eq_some_iff.mp hq, nameIn_eq_some_iff.mp hq']
  · exact List.pairwise_map.mpr t.distinct

/-- A root with nothing below it. -/
def root (mode : D) : FileTree N D L where
  entries := [([], .dir mode)]
  distinct := List.pairwise_singleton _ _
  rooted := ⟨mode, List.mem_singleton.mpr rfl⟩
  closed p n x h := by
    have hnil := (Prod.mk.inj (List.mem_singleton.mp h)).1
    exact absurd (List.append_eq_nil_iff.mp hnil).2 (List.cons_ne_nil n [])

/-- One tree is a part of another if all its entries are entries of that one. -/
instance : Preorder (FileTree N D L) where
  le t t' := ∀ p x, t.node p = some x → t'.node p = some x
  le_refl _ _ _ h := h
  le_trans _ _ _ h h' p x hx := h' p x (h p x hx)

theorem le_iff : t ≤ t' ↔ ∀ p x, t.node p = some x → t'.node p = some x := Iff.rfl

theorem isDir_mono (h : t ≤ t') (hp : t.isDir p = true) : t'.isDir p = true := by
  obtain ⟨d, hd⟩ := isDir_iff.mp hp
  exact isDir_iff.mpr ⟨d, h p _ hd⟩

/-- The entries whose paths are kept; what is above a path that is kept is kept too. -/
def restrict (t : FileTree N D L) (keep : List N → Bool) (hroot : keep [] = true)
    (hup : ∀ p n, keep (p ++ [n]) = true → keep p = true) : FileTree N D L where
  entries := t.entries.filter fun e => keep e.1
  distinct := List.Pairwise.filter _ t.distinct
  rooted := by
    obtain ⟨d, hd⟩ := t.rooted
    exact ⟨d, List.mem_filter.mpr ⟨hd, hroot⟩⟩
  closed p n x h := by
    obtain ⟨hmem, hkeep⟩ := List.mem_filter.mp h
    obtain ⟨d, hd⟩ := t.closed p n x hmem
    exact ⟨d, List.mem_filter.mpr ⟨hd, hup p n hkeep⟩⟩

theorem node_restrict {keep : List N → Bool} {hroot : keep [] = true}
    {hup : ∀ p n, keep (p ++ [n]) = true → keep p = true} :
    (t.restrict keep hroot hup).node p = if keep p then t.node p else none := by
  have hmem : ∀ x, (p, x) ∈ (t.restrict keep hroot hup).entries ↔ (p, x) ∈ t.entries ∧ keep p = true := fun x =>
    List.mem_filter
  split
  next hkeep =>
    cases hp : t.node p with
    | none =>
      exact node_eq_none_iff.mpr fun x hx => node_eq_none_iff.mp hp x ((hmem x).mp hx).1
    | some x => exact node_iff.mpr ((hmem x).mpr ⟨node_iff.mp hp, hkeep⟩)
  next hkeep => exact node_eq_none_iff.mpr fun x hx => hkeep ((hmem x).mp hx).2

theorem restrict_le {keep : List N → Bool} {hroot : keep [] = true}
    {hup : ∀ p n, keep (p ++ [n]) = true → keep p = true} : t.restrict keep hroot hup ≤ t := by
  intro p x h
  rw [node_restrict] at h
  split at h
  next => exact h
  next => cases h

/-- The tree without an entry and what is below it. -/
def prune (t : FileTree N D L) (p : List N) (hp : p ≠ []) : FileTree N D L :=
  t.restrict (fun q => !decide (p <+: q)) (by simpa using hp) fun q n h => by
    simp only [Bool.not_eq_true', decide_eq_false_iff_not] at h ⊢
    exact fun hq => h (List.prefix_append_of_prefix hq)

theorem node_prune (hp : p ≠ []) : (t.prune p hp).node q = if p <+: q then none else t.node q := by
  rw [prune, node_restrict]
  by_cases hq : p <+: q <;> simp [hq]

/-- The tree without what is below an entry. -/
def strip (t : FileTree N D L) (p : List N) : FileTree N D L :=
  t.restrict (fun q => decide (p <+: q → q = p)) (by simp) fun q n h => by
    simp only [decide_eq_true_eq] at h ⊢
    intro hq
    have hlen := congrArg List.length (h (List.prefix_append_of_prefix hq))
    have := hq.length_le
    rw [List.length_append, List.length_singleton] at hlen
    omega

theorem node_strip : (t.strip p).node q = if p <+: q → q = p then t.node q else none := by
  rw [strip, node_restrict]
  simp only [decide_eq_true_eq]

theorem strip_le : t.strip p ≤ t := restrict_le

theorem prune_le (hp : p ≠ []) : t.prune p hp ≤ t := restrict_le

/-- A new entry in a directory. -/
def add (t : FileTree N D L) (p : List N) (n : N) (x : Node D L) (hp : t.isDir p = true)
    (hn : t.node (p ++ [n]) = none) :
    FileTree N D L where
  entries := t.entries ++ [(p ++ [n], x)]
  distinct := by
    refine List.pairwise_append.mpr ⟨t.distinct, List.pairwise_singleton _ _, fun e he e' he' => ?_⟩
    rw [List.mem_singleton.mp he']
    intro heq
    exact node_eq_none_iff.mp hn e.2 (by rw [← show e.1 = p ++ [n] from heq]; exact he)
  rooted := by
    obtain ⟨d, hd⟩ := t.rooted
    exact ⟨d, List.mem_append_left _ hd⟩
  closed q m y h := by
    rcases List.mem_append.mp h with h | h
    · obtain ⟨d, hd⟩ := t.closed q m y h
      exact ⟨d, List.mem_append_left _ hd⟩
    · obtain ⟨hq, -⟩ := Prod.mk.injEq .. ▸ List.mem_singleton.mp h
      obtain ⟨d, hd⟩ := isDir_iff.mp hp
      exact ⟨d, List.mem_append_left _ (node_iff.mp ((List.append_inj' hq rfl).1 ▸ hd))⟩

theorem node_add (hp : t.isDir p = true) (hn : t.node (p ++ [n]) = none) :
    (t.add p n x hp hn).node q = if q = p ++ [n] then some x else t.node q := by
  split
  next hq =>
    subst hq
    exact node_iff.mpr (List.mem_append_right _ (List.mem_singleton.mpr rfl))
  next hq =>
    cases ht : t.node q with
    | none =>
      refine node_eq_none_iff.mpr fun y hy => ?_
      rcases List.mem_append.mp hy with hy | hy
      · exact node_eq_none_iff.mp ht y hy
      · exact hq (Prod.mk.inj (List.mem_singleton.mp hy)).1
    | some y => exact node_iff.mpr (List.mem_append_left _ (node_iff.mp ht))

/-- Another item in the place of one that is there. -/
def assign (t : FileTree N D L) (p : List N) (item : L) (hp : ∃ i, t.node p = some (.leaf i)) : FileTree N D L where
  entries := t.entries.map fun e => if e.1 = p then (p, .leaf item) else e
  distinct := by
    refine List.pairwise_map.mpr (t.distinct.imp fun {e e'} hne => ?_)
    have hfst : ∀ e : List N × Node D L, (if e.1 = p then (p, Node.leaf item) else e).1 = e.1 := by
      intro e
      split
      next he => exact he.symm
      next => rfl
    rwa [hfst, hfst]
  rooted := by
    obtain ⟨d, hd⟩ := t.rooted
    refine ⟨d, List.mem_map.mpr ⟨_, hd, if_neg ?_⟩⟩
    rintro rfl
    obtain ⟨i, hi⟩ := hp
    rw [node_iff.mpr hd] at hi
    cases hi
  closed q n x h := by
    obtain ⟨⟨r, y⟩, he, heq⟩ := List.mem_map.mp h
    have hmem : ∃ y, (q ++ [n], y) ∈ t.entries := by
      split at heq
      next hr =>
        obtain ⟨hq, -⟩ := Prod.mk.inj heq
        exact ⟨y, hq ▸ hr ▸ he⟩
      next => exact ⟨x, heq ▸ he⟩
    obtain ⟨y, hy⟩ := hmem
    obtain ⟨d, hd⟩ := t.closed q n y hy
    refine ⟨d, List.mem_map.mpr ⟨_, hd, if_neg ?_⟩⟩
    rintro rfl
    obtain ⟨i, hi⟩ := hp
    rw [node_iff.mpr hd] at hi
    cases hi

theorem node_assign {item : L} (hp : ∃ i, t.node p = some (.leaf i)) :
    (t.assign p item hp).node q = if q = p then some (.leaf item) else t.node q := by
  split
  next hq =>
    obtain ⟨i, hi⟩ := hp
    exact node_iff.mpr (List.mem_map.mpr ⟨_, node_iff.mp hi, by rw [if_pos rfl, hq]⟩)
  next hq =>
    cases ht : t.node q with
    | none =>
      refine node_eq_none_iff.mpr fun y hy => ?_
      obtain ⟨e, he, heq⟩ := List.mem_map.mp hy
      split at heq
      next => exact hq (Prod.mk.inj heq).1.symm
      next => exact node_eq_none_iff.mp ht y (heq ▸ he)
    | some y => exact node_iff.mpr (List.mem_map.mpr ⟨_, node_iff.mp ht, if_neg hq⟩)

/-- Where an entry is when `p` has become `q`. -/
def relocate (p q r : List N) : List N := if p <+: r then q ++ r.drop p.length else r

theorem relocate_append (p q r : List N) : relocate p q (p ++ r) = q ++ r := by
  rw [relocate, if_pos (List.prefix_append p r), List.drop_left]

theorem relocate_of_not (h : ¬p <+: r) : relocate p q r = r := if_neg h

/-- An entry with all that is below it under a name that is free. -/
def move (t : FileTree N D L) (p q : List N) (n : N) (hp : p ≠ []) (hq : t.isDir q = true)
    (hn : t.node (q ++ [n]) = none) (hout : ¬p <+: q) : FileTree N D L where
  entries := t.entries.map fun e => (relocate p (q ++ [n]) e.1, e.2)
  distinct := by
    have hfree : ∀ k x, (q ++ [n] ++ k, x) ∉ t.entries := by
      intro k x hk
      by_cases hk' : k = []
      · rw [hk', List.append_nil] at hk
        exact node_eq_none_iff.mp hn x hk
      · obtain ⟨d, hd⟩ := isDir_iff.mp (isDir_of_append (node_iff.mpr hk) hk')
        rw [hn] at hd
        cases hd
    refine List.pairwise_map.mpr (t.distinct.imp_of_mem fun {e e'} he he' hne heq => ?_)
    have heq : relocate p (q ++ [n]) e.1 = relocate p (q ++ [n]) e'.1 := heq
    by_cases h : p <+: e.1 <;> by_cases h' : p <+: e'.1
    · obtain ⟨k, hk⟩ := h
      obtain ⟨k', hk'⟩ := h'
      rw [← hk, ← hk', relocate_append, relocate_append] at heq
      exact hne (by rw [← show p ++ k = e.1 from hk, ← show p ++ k' = e'.1 from hk', List.append_cancel_left heq])
    · obtain ⟨k, hk⟩ := h
      rw [← hk, relocate_append, relocate_of_not h'] at heq
      exact hfree k e'.2 (heq ▸ he')
    · obtain ⟨k, hk⟩ := h'
      rw [← hk, relocate_append, relocate_of_not h] at heq
      exact hfree k e.2 (heq ▸ he)
    · rw [relocate_of_not h, relocate_of_not h'] at heq
      exact hne heq
  rooted := by
    obtain ⟨d, hd⟩ := t.rooted
    exact ⟨d, List.mem_map.mpr ⟨_, hd, by rw [relocate_of_not (by simpa using hp)]⟩⟩
  closed r m x h := by
    obtain ⟨⟨s, y⟩, he, heq⟩ := List.mem_map.mp h
    obtain ⟨hs, -⟩ := Prod.mk.inj heq
    by_cases h : p <+: s
    · obtain ⟨k, rfl⟩ := h
      rw [relocate_append] at hs
      rcases List.eq_nil_or_concat' k with rfl | ⟨k, j, rfl⟩
      · rw [List.append_nil] at hs
        obtain ⟨rfl, -⟩ := List.append_inj' hs rfl
        obtain ⟨d, hd⟩ := isDir_iff.mp hq
        exact ⟨d, List.mem_map.mpr ⟨_, node_iff.mp hd, by rw [relocate_of_not hout]⟩⟩
      · rw [← List.append_assoc] at hs he
        obtain ⟨rfl, -⟩ := List.append_inj' hs rfl
        obtain ⟨d, hd⟩ := t.closed _ _ _ he
        exact ⟨d, List.mem_map.mpr ⟨_, hd, by rw [relocate_append]⟩⟩
    · rw [relocate_of_not h] at hs
      subst hs
      obtain ⟨d, hd⟩ := t.closed _ _ _ he
      exact ⟨d, List.mem_map.mpr ⟨_, hd, by rw [relocate_of_not fun hr => h (List.prefix_append_of_prefix hr)]⟩⟩

theorem node_move (hp : p ≠ []) (hq : t.isDir q = true) (hn : t.node (q ++ [n]) = none) (hout : ¬p <+: q) :
    (t.move p q n hp hq hn hout).node r =
      if q ++ [n] <+: r then t.node (p ++ r.drop (q.length + 1)) else if p <+: r then none else t.node r := by
  have hmem : ∀ x, (r, x) ∈ (t.move p q n hp hq hn hout).entries ↔
      ∃ s, (s, x) ∈ t.entries ∧ relocate p (q ++ [n]) s = r := by
    intro x
    constructor
    · intro h
      obtain ⟨⟨s, y⟩, he, heq⟩ := List.mem_map.mp h
      obtain ⟨hs, rfl⟩ := Prod.mk.inj heq
      exact ⟨s, he, hs⟩
    · rintro ⟨s, he, hs⟩
      exact List.mem_map.mpr ⟨_, he, by rw [hs]⟩
  apply Option.ext
  intro x
  rw [node_iff, hmem]
  split
  next hr =>
    obtain ⟨k, rfl⟩ := hr
    rw [← List.length_singleton (a := n), ← List.length_append, List.drop_left, node_iff]
    constructor
    · rintro ⟨s, he, hs⟩
      by_cases h : p <+: s
      · obtain ⟨j, rfl⟩ := h
        rw [relocate_append] at hs
        rwa [← List.append_cancel_left hs]
      · rw [relocate_of_not h] at hs
        subst hs
        by_cases hk : k = []
        · rw [hk, List.append_nil] at he
          exact absurd he (node_eq_none_iff.mp hn x)
        · obtain ⟨d, hd⟩ := isDir_iff.mp (isDir_of_append (node_iff.mpr he) hk)
          rw [hn] at hd
          cases hd
    · exact fun he => ⟨_, he, relocate_append ..⟩
  next hr =>
    have hback : ∀ s, relocate p (q ++ [n]) s = r → ¬p <+: s ∧ s = r := by
      intro s hs
      by_cases h : p <+: s
      · obtain ⟨k, rfl⟩ := h
        rw [relocate_append] at hs
        exact absurd ⟨k, hs⟩ hr
      · exact ⟨h, (relocate_of_not h).symm.trans hs⟩
    split
    next hpr =>
      constructor
      · rintro ⟨s, -, hs⟩
        obtain ⟨h, rfl⟩ := hback s hs
        exact absurd hpr h
      · nofun
    next hpr =>
      rw [node_iff]
      constructor
      · rintro ⟨s, he, hs⟩
        obtain ⟨-, rfl⟩ := hback s hs
        exact he
      · exact fun he => ⟨r, he, relocate_of_not hpr⟩

theorem node_move_append (hp : p ≠ []) (hq : t.isDir q = true) (hn : t.node (q ++ [n]) = none) (hout : ¬p <+: q) :
    (t.move p q n hp hq hn hout).node (q ++ [n] ++ r) = t.node (p ++ r) := by
  rw [node_move, if_pos (List.prefix_append _ r), ← List.length_singleton (a := n), ← List.length_append,
    List.drop_left]

end FileTree
