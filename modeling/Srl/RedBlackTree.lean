import Srl.SearchTree
import Mathlib.Analysis.SpecialFunctions.Log.Base

namespace SearchTree

variable {α : Type} (red : α → Bool)

/-- A missing node counts as black. -/
def redRoot : BinTree α → Bool
  | .nil => false
  | .node _ _ k _ => red k

def NoRedRed : BinTree α → Prop
  | .nil => True
  | .node l _ k r => (red k = true → redRoot red l = false ∧ redRoot red r = false) ∧ NoRedRed l ∧ NoRedRed r

/-- What a node adds to the black nodes of the paths through it. -/
def weight (k : α) : Nat := if red k then 0 else 1

/-- The numbers of black nodes on the paths from the root to a missing node. -/
def blackCounts : BinTree α → List Nat
  | .nil => [0]
  | .node l _ k r => (blackCounts l ++ blackCounts r).map (· + weight red k)

/-- No red node has a red child, and all paths to a missing node have the same number of black nodes. -/
structure RedBlack (t : BinTree α) : Prop where
  noRedRed : NoRedRed red t
  even : ∃ h, ∀ n ∈ blackCounts red t, n = h

/-- The same with the number of black nodes, along the tree. -/
def Balanced : BinTree α → Nat → Prop
  | .nil, h => h = 0
  | .node l _ k r, h => ∃ n, h = n + weight red k ∧ (red k = true → redRoot red l = false ∧ redRoot red r = false) ∧
      Balanced l n ∧ Balanced r n

def BinTree.height : BinTree α → Nat
  | .nil => 0
  | .node l _ _ r => max l.height r.height + 1

variable {red} {s : Side} {a : Nat} {k : α} {t x y : BinTree α} {h m n : Nat} {c : List (Frame α)} {f : Frame α}

@[simp] theorem redRoot_node (l r : BinTree α) : redRoot red (.node l a k r) = red k := rfl

@[simp] theorem redRoot_join : redRoot red (join s a k x y) = red k := by cases s <;> rfl

theorem weight_red (hk : red k = true) : weight red k = 0 := by simp [weight, hk]

theorem weight_black (hk : red k = false) : weight red k = 1 := by simp [weight, hk]

theorem Balanced.unique (hm : Balanced red t m) (hn : Balanced red t n) : m = n := by
  induction t generalizing m n with
  | nil => exact hm.trans hn.symm
  | node l a k r ihl _ =>
    obtain ⟨i, rfl, -, hl, -⟩ := hm
    obtain ⟨j, rfl, -, hl', -⟩ := hn
    rw [ihl hl hl']

theorem blackCounts_ne_nil (t : BinTree α) : blackCounts red t ≠ [] := by
  induction t with
  | nil => simp [blackCounts]
  | node l a k r ihl _ => simp [blackCounts, ihl]

theorem balanced_iff : Balanced red t h ↔ NoRedRed red t ∧ ∀ n ∈ blackCounts red t, n = h := by
  induction t generalizing h with
  | nil => simp [Balanced, NoRedRed, blackCounts, eq_comm]
  | node l a k r ihl ihr =>
    simp only [Balanced, NoRedRed, blackCounts, ihl, ihr, List.mem_map, List.mem_append]
    constructor
    · rintro ⟨n, rfl, hk, ⟨hl, hln⟩, hr, hrn⟩
      refine ⟨⟨hk, hl, hr⟩, ?_⟩
      rintro _ ⟨m, hm, rfl⟩
      rw [hm.elim (hln m) (hrn m)]
    · rintro ⟨⟨hk, hl, hr⟩, hn⟩
      obtain ⟨i, hi⟩ := List.exists_mem_of_ne_nil (blackCounts red l) (blackCounts_ne_nil l)
      have hih := hn _ ⟨i, .inl hi, rfl⟩
      have hsame : ∀ m, m ∈ blackCounts red l ∨ m ∈ blackCounts red r → m = i := by
        intro m hm
        have := hn _ ⟨m, hm, rfl⟩
        omega
      exact ⟨i, hih.symm, hk, ⟨hl, fun m hm => hsame m (.inl hm)⟩, hr, fun m hm => hsame m (.inr hm)⟩

theorem redBlack_iff : RedBlack red t ↔ ∃ h, Balanced red t h := by
  constructor
  · rintro ⟨hred, h, hh⟩
    exact ⟨h, balanced_iff.mpr ⟨hred, hh⟩⟩
  · rintro ⟨h, hb⟩
    obtain ⟨hred, hh⟩ := balanced_iff.mp hb
    exact ⟨hred, h, hh⟩

theorem balanced_join : Balanced red (join s a k x y) h ↔
    ∃ n, h = n + weight red k ∧ (red k = true → redRoot red x = false ∧ redRoot red y = false) ∧
      Balanced red x n ∧ Balanced red y n := by
  cases s with
  | lesser => rfl
  | greater =>
    refine exists_congr fun n => and_congr_right fun _ => and_congr ?_ and_comm
    rw [and_comm]

theorem Balanced.join_red (hx : Balanced red x n) (hy : Balanced red y n) (hk : red k = true)
    (hxr : redRoot red x = false) (hyr : redRoot red y = false) : Balanced red (join s a k x y) n :=
  balanced_join.mpr ⟨n, by rw [weight_red hk, Nat.add_zero], fun _ => ⟨hxr, hyr⟩, hx, hy⟩

theorem Balanced.join_black (hx : Balanced red x n) (hy : Balanced red y n) (hk : red k = false) :
    Balanced red (join s a k x y) (n + 1) :=
  balanced_join.mpr ⟨n, by rw [weight_black hk], fun hr => by simp [hk] at hr, hx, hy⟩

/-- The color of the nearest ancestor. -/
def redAbove (red : α → Bool) : List (Frame α) → Bool
  | [] => false
  | f :: _ => red f.label

/-- The path goes on as a red-black tree of black height `h` above a hole of black height `n`. -/
def BalancedPath (red : α → Bool) : List (Frame α) → Nat → Nat → Prop
  | [], n, h => h = n
  | f :: c, n, h => (red f.label = true → redRoot red f.sib = false ∧ redAbove red c = false) ∧
      Balanced red f.sib n ∧ BalancedPath red c (n + weight red f.label) h

theorem balanced_plug : Balanced red (plug c t) h ↔
    ∃ n, Balanced red t n ∧ BalancedPath red c n h ∧ (redRoot red t = true → redAbove red c = false) := by
  induction c generalizing t with
  | nil =>
    constructor
    · intro ht
      exact ⟨h, ht, rfl, fun _ => rfl⟩
    · rintro ⟨n, ht, rfl, -⟩
      exact ht
  | cons f c ih =>
    rw [plug_cons, ih]
    constructor
    · rintro ⟨m, hfill, hc, htop⟩
      obtain ⟨n, rfl, hk, ht, hsib⟩ := balanced_join.mp hfill
      rw [Frame.fill, redRoot_join] at htop
      refine ⟨n, ht, ⟨fun hr => ⟨(hk hr).2, htop hr⟩, hsib, hc⟩, fun hr => ?_⟩
      show red f.label = false
      by_contra hne
      rw [Bool.not_eq_false] at hne
      simp [(hk hne).1] at hr
    · rintro ⟨n, ht, ⟨hk, hsib, hc⟩, htop⟩
      refine ⟨n + weight red f.label, balanced_join.mpr ⟨n, rfl, fun hr => ⟨?_, (hk hr).1⟩, ht, hsib⟩, hc, ?_⟩
      · by_contra hne
        rw [Bool.not_eq_false] at hne
        have : red f.label = false := htop hne
        simp [hr] at this
      · rw [Frame.fill, redRoot_join]
        exact fun hr => (hk hr).2

/-- Below an ancestor only one black height fits. -/
theorem BalancedPath.unique {h' : Nat} (hm : BalancedPath red (f :: c) m h) (hn : BalancedPath red (f :: c) n h') :
    m = n := hm.2.1.unique hn.2.1

theorem redRoot_plug : redRoot red (plug c t) = (c.getLast?.map fun f => red f.label).getD (redRoot red t) := by
  induction c generalizing t with
  | nil => rfl
  | cons f c ih =>
    rw [plug_cons, ih, Frame.fill, redRoot_join, List.getLast?_cons, Option.map_some, Option.getD_some]
    cases c.getLast? with
    | none => rfl
    | some g => rfl

theorem black_plug {t' : BinTree α} (hroot : redRoot red (plug c t) = false) (ht' : redRoot red t' = false) :
    redRoot red (plug c t') = false := by
  rw [redRoot_plug] at hroot ⊢
  cases hl : c.getLast? with
  | none => exact ht'
  | some g => rwa [hl] at hroot

/-- What a path has besides the addresses of the ancestors. -/
def Frame.shape (f : Frame α) : Side × α × BinTree α := (f.side, f.label, f.sib)

theorem BalancedPath.congr {c' : List (Frame α)} (hc : BalancedPath red c n h)
    (same : c'.map Frame.shape = c.map Frame.shape) : BalancedPath red c' n h := by
  induction c generalizing c' n with
  | nil =>
    obtain rfl := List.map_eq_nil_iff.mp same
    exact hc
  | cons f c ih =>
    obtain ⟨f', c', rfl, hf, hsame⟩ := List.map_eq_cons_iff.mp same
    simp only [Frame.shape, Prod.mk.injEq] at hf
    obtain ⟨hk, hsib, hpath⟩ := hc
    have habove : redAbove red c' = redAbove red c := by
      cases c with
      | nil =>
        obtain rfl := List.map_eq_nil_iff.mp hsame
        rfl
      | cons g c =>
        obtain ⟨g', c', rfl, hg, -⟩ := List.map_eq_cons_iff.mp hsame
        exact congrArg red (congrArg (fun p => p.2.1) hg)
    refine ⟨?_, ?_, ?_⟩
    · rw [hf.2.1, hf.2.2, habove]
      exact hk
    · rw [hf.2.2]
      exact hsib
    · rw [hf.2.1]
      exact ih hpath hsame

theorem redRoot_plug_congr {c' : List (Frame α)} (same : c'.map Frame.shape = c.map Frame.shape) :
    redRoot red (plug c' t) = redRoot red (plug c t) := by
  have hlast := congrArg (fun l => (l.getLast?.map fun p : Side × α × BinTree α => red p.2.1)) same
  simp only [List.getLast?_map, Option.map_map] at hlast
  rw [redRoot_plug, redRoot_plug]
  exact congrArg (Option.getD · (redRoot red t)) hlast

theorem Balanced.nil_or_red (ht : Balanced red t 0) : t = .nil ∨ redRoot red t = true := by
  cases t with
  | nil => exact .inl rfl
  | node l a k r =>
    obtain ⟨n, hn, -⟩ := ht
    refine .inr ?_
    by_contra hk
    have hk : red k = false := Bool.not_eq_true _ ▸ hk
    rw [weight_black hk] at hn
    omega

theorem Balanced.height_le (ht : Balanced red t h) : t.height ≤ 2 * h + if redRoot red t then 1 else 0 := by
  induction t generalizing h with
  | nil => exact Nat.zero_le _
  | node l a k r ihl ihr =>
    obtain ⟨n, rfl, hk, hl, hr⟩ := ht
    have hl := ihl hl
    have hr := ihr hr
    rw [redRoot_node, BinTree.height]
    by_cases hc : red k = true
    · obtain ⟨hlk, hrk⟩ := hk hc
      rw [hlk] at hl
      rw [hrk] at hr
      simp only [Bool.false_eq_true, if_false] at hl hr
      rw [weight_red hc, if_pos hc]
      omega
    · rw [weight_black (by simpa using hc)]
      split at hl <;> split at hr <;> omega

theorem Balanced.le_size (ht : Balanced red t h) :
    2 ^ (h + if redRoot red t then 1 else 0) ≤ t.inorder.length + 1 := by
  induction t generalizing h with
  | nil =>
    obtain rfl : h = 0 := ht
    simp [redRoot]
  | node l a k r ihl ihr =>
    obtain ⟨n, rfl, hk, hl, hr⟩ := ht
    have hle : ∀ {t : BinTree α}, 2 ^ (n + if redRoot red t then 1 else 0) ≤ t.inorder.length + 1 →
        2 ^ n ≤ t.inorder.length + 1 := fun ht =>
      (Nat.pow_le_pow_right Nat.two_pos (Nat.le_add_right _ _)).trans ht
    have hl := hle (ihl hl)
    have hr := hle (ihr hr)
    have hsum : n + weight red k + (if redRoot red (.node l a k r) then 1 else 0) = n + 1 := by
      by_cases hc : red k = true <;> simp [weight, hc]
    rw [hsum, Nat.pow_succ, inorder_node, List.length_append, List.length_cons]
    omega

/-- A red-black tree is at most twice as high as the logarithm of its size. -/
theorem RedBlack.height_le (ht : RedBlack red t) :
    (t.height : ℝ) ≤ 2 * Real.logb 2 (t.inorder.length + 1) := by
  obtain ⟨h, hb⟩ := redBlack_iff.mp ht
  have hheight := hb.height_le
  have hsize := hb.le_size
  generalize (if redRoot red t then 1 else 0) = i at hheight hsize
  have hi : t.height ≤ 2 * (h + i) := by omega
  have hpos : (0 : ℝ) < t.inorder.length + 1 := by positivity
  have hlog : ((h + i : Nat) : ℝ) ≤ Real.logb 2 (t.inorder.length + 1) := by
    rw [Real.le_logb_iff_rpow_le one_lt_two hpos, Real.rpow_natCast]
    exact_mod_cast hsize
  calc (t.height : ℝ) ≤ 2 * ((h + i : Nat) : ℝ) := by exact_mod_cast hi
    _ ≤ 2 * Real.logb 2 (t.inorder.length + 1) := by linarith

end SearchTree
