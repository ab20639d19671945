import Mathlib.Data.List.Basic
import Mathlib.Data.List.Nodup

namespace SearchTree

/-- Which of the two children of a node. -/
inductive Side
  | lesser
  | greater
  deriving DecidableEq, Repr

def Side.flip : Side → Side
  | .lesser => .greater
  | .greater => .lesser

@[simp] theorem Side.flip_flip (s : Side) : s.flip.flip = s := by cases s <;> rfl

@[simp] theorem Side.flip_ne (s : Side) : s.flip ≠ s := by cases s <;> decide

@[simp] theorem Side.ne_flip (s : Side) : s ≠ s.flip := by cases s <;> decide

theorem Side.eq_or_flip (s t : Side) : t = s ∨ t = s.flip := by cases s <;> cases t <;> decide

/-- Binary trees whose nodes sit at an address and carry a label. -/
inductive BinTree (α : Type) where
  | nil
  | node (l : BinTree α) (a : Nat) (c : α) (r : BinTree α)
  deriving Repr

variable {α : Type}

/-- Address of the root, 0 for the empty tree. -/
def BinTree.ptr : BinTree α → Nat
  | .nil => 0
  | .node _ a _ _ => a

def BinTree.inorder : BinTree α → List Nat
  | .nil => []
  | .node l a _ r => l.inorder ++ a :: r.inorder

@[simp] theorem ptr_nil : (BinTree.nil : BinTree α).ptr = 0 := rfl

@[simp] theorem ptr_node (l r : BinTree α) (a : Nat) (c : α) : (BinTree.node l a c r).ptr = a := rfl

@[simp] theorem inorder_nil : (BinTree.nil : BinTree α).inorder = [] := rfl

@[simp] theorem inorder_node (l r : BinTree α) (a : Nat) (c : α) :
    (BinTree.node l a c r).inorder = l.inorder ++ a :: r.inorder := rfl

/-- The node with `x` as its child on side `s` and `y` as the other child. -/
def join (s : Side) (a : Nat) (c : α) (x y : BinTree α) : BinTree α :=
  match s with
  | .lesser => .node x a c y
  | .greater => .node y a c x

@[simp] theorem ptr_join (s : Side) (a : Nat) (c : α) (x y : BinTree α) :
    (join s a c x y).ptr = a := by cases s <;> rfl

@[simp] theorem mem_join {s : Side} {a b : Nat} {c : α} {x y : BinTree α} :
    b ∈ (join s a c x y).inorder ↔ b = a ∨ b ∈ x.inorder ∨ b ∈ y.inorder := by
  cases s <;> simp [join] <;> grind

theorem join_flip (s : Side) (a : Nat) (c : α) (x y : BinTree α) :
    join s.flip a c x y = join s a c y x := by cases s <;> rfl

def BinTree.child (s : Side) : BinTree α → BinTree α
  | .nil => .nil
  | .node l _ _ r => match s with | .lesser => l | .greater => r

@[simp] theorem child_join (s : Side) (a : Nat) (c : α) (x y : BinTree α) :
    (join s a c x y).child s = x := by cases s <;> rfl

@[simp] theorem child_flip_join (s : Side) (a : Nat) (c : α) (x y : BinTree α) :
    (join s a c x y).child s.flip = y := by cases s <;> rfl

@[simp] theorem join_ne_nil (s : Side) (a : Nat) (c : α) (x y : BinTree α) :
    join s a c x y ≠ .nil := by cases s <;> simp [join]

/-- A node can be told from either of its sides. -/
theorem exists_join (s : Side) {t : BinTree α} (h : t ≠ .nil) : ∃ a c x y, t = join s a c x y := by
  cases t with
  | nil => exact absurd rfl h
  | node l a c r =>
    cases s with
    | lesser => exact ⟨a, c, l, r, rfl⟩
    | greater => exact ⟨a, c, r, l, rfl⟩

theorem nodup_join {s : Side} {a : Nat} {c : α} {x y : BinTree α} :
    (join s a c x y).inorder.Nodup ↔ a ∉ x.inorder ∧ a ∉ y.inorder ∧
      x.inorder.Nodup ∧ y.inorder.Nodup ∧ x.inorder.Disjoint y.inorder := by
  cases s <;> simp only [join, inorder_node, List.nodup_append', List.nodup_cons,
    List.disjoint_cons_right] <;> grind [List.Disjoint]

theorem inorder_join_label (s : Side) (a : Nat) (c c' : α) (x y : BinTree α) :
    (join s a c x y).inorder = (join s a c' x y).inorder := by cases s <;> rfl

/-- Rotation at a node: the child on side `s` takes the place of its parent. -/
theorem inorder_rotate (s : Side) (a b : Nat) (ca cb : α) (x y z : BinTree α) :
    (join s b cb x (join s a ca y z)).inorder = (join s a ca (join s b cb x y) z).inorder := by
  cases s <;> simp [join]

/-- One step of the path above a subtree: the ancestor, and the child not taken. -/
structure Frame (α : Type) where
  side : Side
  addr : Nat
  label : α
  sib : BinTree α

def Frame.fill (f : Frame α) (t : BinTree α) : BinTree α := join f.side f.addr f.label t f.sib

@[simp] theorem ptr_fill (f : Frame α) (t : BinTree α) : (f.fill t).ptr = f.addr := ptr_join ..

/-- Put a subtree back under its path, nearest ancestor first. -/
def plug : List (Frame α) → BinTree α → BinTree α
  | [], t => t
  | f :: c, t => plug c (f.fill t)

@[simp] theorem plug_nil (t : BinTree α) : plug [] t = t := rfl

@[simp] theorem plug_cons (f : Frame α) (c : List (Frame α)) (t : BinTree α) :
    plug (f :: c) t = plug c (f.fill t) := rfl

theorem plug_append (c c' : List (Frame α)) (t : BinTree α) :
    plug (c ++ c') t = plug c' (plug c t) := by
  induction c generalizing t with
  | nil => rfl
  | cons f c ih => exact ih (f.fill t)

/-- Parent of a subtree with the given path above it, 0 at the root. -/
def above : List (Frame α) → Nat
  | [] => 0
  | f :: _ => f.addr

@[simp] theorem above_nil : above ([] : List (Frame α)) = 0 := rfl

@[simp] theorem above_cons (f : Frame α) (c : List (Frame α)) : above (f :: c) = f.addr := rfl

def Frame.before (f : Frame α) : List Nat :=
  match f.side with
  | .lesser => []
  | .greater => f.sib.inorder ++ [f.addr]

def Frame.after (f : Frame α) : List Nat :=
  match f.side with
  | .lesser => f.addr :: f.sib.inorder
  | .greater => []

def before (c : List (Frame α)) : List Nat := c.foldr (fun f bs => bs ++ f.before) []

def after (c : List (Frame α)) : List Nat := c.foldr (fun f as => f.after ++ as) []

@[simp] theorem before_nil : before ([] : List (Frame α)) = [] := rfl

@[simp] theorem after_nil : after ([] : List (Frame α)) = [] := rfl

@[simp] theorem before_cons (f : Frame α) (c : List (Frame α)) :
    before (f :: c) = before c ++ f.before := rfl

@[simp] theorem after_cons (f : Frame α) (c : List (Frame α)) :
    after (f :: c) = f.after ++ after c := rfl

theorem inorder_fill (f : Frame α) (t : BinTree α) :
    (f.fill t).inorder = f.before ++ t.inorder ++ f.after := by
  obtain ⟨s, a, c, sib⟩ := f
  cases s <;> simp [Frame.fill, join, Frame.before, Frame.after]

/-- A path splits the traversal of the whole tree around its hole. -/
theorem inorder_plug (c : List (Frame α)) (t : BinTree α) :
    (plug c t).inorder = before c ++ t.inorder ++ after c := by
  induction c generalizing t with
  | nil => simp
  | cons f c ih => simp [ih, inorder_fill]

theorem inorder_plug_congr (c : List (Frame α)) {t t' : BinTree α} (h : t'.inorder = t.inorder) :
    (plug c t').inorder = (plug c t).inorder := by
  simp [inorder_plug, h]

theorem ptr_plug_congr (c : List (Frame α)) {t t' : BinTree α} (h : t.ptr = t'.ptr) :
    (plug c t).ptr = (plug c t').ptr := by
  induction c generalizing t t' with
  | nil => exact h
  | cons f c ih => exact ih (by simp)

/-- Addresses on a path: the ancestors and everything in the children not taken. -/
def pathAddrs (c : List (Frame α)) : List Nat := before c ++ after c

@[simp] theorem mem_pathAddrs_nil {b : Nat} : b ∈ pathAddrs ([] : List (Frame α)) ↔ False := by
  simp [pathAddrs]

@[simp] theorem mem_pathAddrs_cons {f : Frame α} {c : List (Frame α)} {b : Nat} :
    b ∈ pathAddrs (f :: c) ↔ b = f.addr ∨ b ∈ f.sib.inorder ∨ b ∈ pathAddrs c := by
  obtain ⟨s, a, k, sib⟩ := f
  cases s <;> simp [pathAddrs, Frame.before, Frame.after] <;> grind

@[simp] theorem mem_plug {c : List (Frame α)} {t : BinTree α} {b : Nat} :
    b ∈ (plug c t).inorder ↔ b ∈ t.inorder ∨ b ∈ pathAddrs c := by
  simp [inorder_plug, pathAddrs]; grind

theorem length_le_plug (c : List (Frame α)) (t : BinTree α) :
    c.length ≤ (plug c t).inorder.length := by
  induction c generalizing t with
  | nil => simp
  | cons f c ih =>
    have := ih t
    have hf : (f.fill t).inorder.length = t.inorder.length + f.sib.inorder.length + 1 := by
      obtain ⟨s, a, k, w⟩ := f
      cases s <;> simp [Frame.fill, join] <;> omega
    simp only [inorder_plug, plug_cons, List.length_append, List.length_cons] at *
    omega

theorem nodup_plug {c : List (Frame α)} {t : BinTree α} (h : (plug c t).inorder.Nodup) :
    t.inorder.Nodup ∧ (pathAddrs c).Nodup ∧ t.inorder.Disjoint (pathAddrs c) := by
  rw [inorder_plug, List.nodup_append', List.nodup_append'] at h
  obtain ⟨⟨hb, ht, hbt⟩, ha, hd⟩ := h
  refine ⟨ht, ?_, ?_⟩
  · exact List.nodup_append'.mpr ⟨hb, ha, fun x hx hy => hd (by simp [hx]) hy⟩
  · intro x hx hy
    rcases List.mem_append.mp hy with hy | hy
    · exact hbt hy hx
    · exact hd (by simp [hx]) hy

theorem nodup_pathAddrs_cons {f : Frame α} {c : List (Frame α)} :
    (pathAddrs (f :: c)).Nodup ↔ f.addr ∉ f.sib.inorder ∧ f.addr ∉ pathAddrs c ∧
      f.sib.inorder.Nodup ∧ (pathAddrs c).Nodup ∧ f.sib.inorder.Disjoint (pathAddrs c) := by
  obtain ⟨s, a, k, sib⟩ := f
  cases s <;> simp only [pathAddrs, before_cons, after_cons, Frame.before, Frame.after,
    List.append_nil, List.nil_append, List.nodup_append', List.nodup_cons, List.mem_append,
    List.disjoint_append_left, List.disjoint_append_right, List.disjoint_cons_left,
    List.disjoint_cons_right, List.cons_append] <;> grind [List.Disjoint]

theorem plug_cons_ptr_mem (f : Frame α) (c : List (Frame α)) (t : BinTree α) :
    (plug (f :: c) t).ptr ∈ pathAddrs (f :: c) := by
  induction c generalizing f t with
  | nil => simp
  | cons g c ih =>
    rw [mem_pathAddrs_cons]
    exact Or.inr (Or.inr (ih g (f.fill t)))

theorem ptr_mem {t : BinTree α} (h : t ≠ .nil) : t.ptr ∈ t.inorder := by
  cases t with
  | nil => exact absurd rfl h
  | node l a c r => simp

theorem ptr_mem_of_ne_zero {t : BinTree α} (h : t.ptr ≠ 0) : t.ptr ∈ t.inorder :=
  ptr_mem (by rintro rfl; exact h rfl)

theorem ptr_ne_of_not_mem {t : BinTree α} {a : Nat} (h : a ∉ t.inorder) (ha : a ≠ 0) : t.ptr ≠ a := by
  by_cases ht : t = .nil
  · simpa [ht] using Ne.symm ha
  · rintro rfl
    exact h (ptr_mem ht)

/-- A subtree below at least one ancestor is not the whole tree. -/
theorem plug_cons_ptr_ne {f : Frame α} {c : List (Frame α)} {t : BinTree α} (ht : t ≠ .nil)
    (h : (plug (f :: c) t).inorder.Nodup) : t.ptr ≠ (plug (f :: c) t).ptr := by
  intro he
  exact (nodup_plug h).2.2 (ptr_mem ht) (he ▸ plug_cons_ptr_mem f c t)

/-- The search path that `go` takes down a tree, on top of a path to its root. -/
def descend (go : Nat → Side) : BinTree α → List (Frame α) → List (Frame α)
  | .nil, c => c
  | .node l a k r, c =>
    match go a with
    | .lesser => descend go l (⟨.lesser, a, k, r⟩ :: c)
    | .greater => descend go r (⟨.greater, a, k, l⟩ :: c)

@[simp] theorem plug_descend (go : Nat → Side) (t : BinTree α) (c : List (Frame α)) :
    plug (descend go t c) .nil = plug c t := by
  induction t generalizing c with
  | nil => rfl
  | node l a k r ihl ihr =>
    rw [descend]
    split
    next => rw [ihl]; rfl
    next => rw [ihr]; rfl

theorem length_descend_le (go : Nat → Side) (t : BinTree α) (c : List (Frame α)) :
    (descend go t c).length ≤ t.inorder.length + c.length := by
  induction t generalizing c with
  | nil => simp [descend]
  | node l a k r ihl ihr =>
    rw [descend]
    split
    next => have := ihl (⟨.lesser, a, k, r⟩ :: c); simp at *; omega
    next => have := ihr (⟨.greater, a, k, l⟩ :: c); simp at *; omega

/-- A search that agrees with the order of the tree cuts the traversal at its leaf. -/
theorem descend_split {go : Nat → Side} {t : BinTree α} (c : List (Frame α))
    (mono : t.inorder.Pairwise fun a b => go b = .greater → go a = .greater) :
    ∃ xs ys, t.inorder = xs ++ ys ∧ (∀ a ∈ xs, go a = .greater) ∧ (∀ a ∈ ys, go a = .lesser) ∧
      before (descend go t c) = before c ++ xs ∧ after (descend go t c) = ys ++ after c := by
  induction t generalizing c with
  | nil => exact ⟨[], [], by simp [descend]⟩
  | node l a k r ihl ihr =>
    simp only [inorder_node, List.pairwise_append, List.pairwise_cons] at mono
    obtain ⟨ml, ⟨mar, mr⟩, mlr⟩ := mono
    rw [descend]
    cases ha : go a with
    | lesser =>
      obtain ⟨xs, ys, hl, hx, hy, hb, haf⟩ := ihl (⟨.lesser, a, k, r⟩ :: c) ml
      refine ⟨xs, ys ++ a :: r.inorder, by simp [hl], hx, ?_, ?_, ?_⟩
      · intro b hb
        rcases List.mem_append.mp hb with hb | hb
        · exact hy b hb
        · rcases List.mem_cons.mp hb with rfl | hb
          · exact ha
          · have := mar b hb
            cases hg : go b <;> simp_all
      · simpa [Frame.before] using hb
      · simpa [Frame.after] using haf
    | greater =>
      obtain ⟨xs, ys, hr, hx, hy, hb, haf⟩ := ihr (⟨.greater, a, k, l⟩ :: c) mr
      refine ⟨l.inorder ++ a :: xs, ys, by simp [hr], ?_, hy, ?_, ?_⟩
      · intro b hb
        rcases List.mem_append.mp hb with hb | hb
        · exact mlr b hb a (by simp) ha
        · rcases List.mem_cons.mp hb with rfl | hb
          · exact ha
          · exact hx b hb
      · simpa [Frame.before] using hb
      · simpa [Frame.after] using haf

/-- Every node of a tree is the focus of some path. -/
theorem exists_plug {t : BinTree α} {a : Nat} (h : a ∈ t.inorder) :
    ∃ c l k r, t = plug c (.node l a k r) := by
  induction t with
  | nil => simp at h
  | node l b k r ihl ihr =>
    rcases List.mem_append.mp h with h | h
    · obtain ⟨c, l', k', r', rfl⟩ := ihl h
      exact ⟨c ++ [⟨.lesser, b, k, r⟩], l', k', r', by simp [plug_append, Frame.fill, join]⟩
    · rcases List.mem_cons.mp h with rfl | h
      · exact ⟨[], l, k, r, rfl⟩
      · obtain ⟨c, l', k', r', rfl⟩ := ihr h
        exact ⟨c ++ [⟨.greater, b, k, l⟩], l', k', r', by simp [plug_append, Frame.fill, join]⟩

theorem descend_append (go : Nat → Side) (t : BinTree α) (c : List (Frame α)) :
    descend go t c = descend go t [] ++ c := by
  induction t generalizing c with
  | nil => rfl
  | node l a k r ihl ihr =>
    simp only [descend]
    split
    next => rw [ihl, ihl [_]]; simp
    next => rw [ihr, ihr [_]]; simp

theorem before_descend_lesser (t : BinTree α) (c : List (Frame α)) :
    before (descend (fun _ => .lesser) t c) = before c := by
  induction t generalizing c with
  | nil => rfl
  | node l a k r ihl ihr =>
    rw [descend, ihl]
    simp [Frame.before]

/-- The way down to the least node ends above its missing lesser child. -/
theorem exists_least {t : BinTree α} (h : t ≠ .nil) :
    ∃ y k x c, descend (fun _ => .lesser) t [] = ⟨.lesser, y, k, x⟩ :: c ∧
      t = plug c (.node .nil y k x) ∧ before c = [] := by
  have hleast : ∃ f c, descend (fun _ => Side.lesser) t [] = f :: c ∧ f.side = .lesser := by
    induction t with
    | nil => exact absurd rfl h
    | node l a k r ihl ihr =>
      by_cases hl : l = .nil
      · exact ⟨⟨.lesser, a, k, r⟩, [], by simp [descend, hl]⟩
      · obtain ⟨f, c, hd, hf⟩ := ihl hl
        exact ⟨f, c ++ [⟨.lesser, a, k, r⟩], by rw [descend, descend_append, hd]; rfl, hf⟩
  obtain ⟨⟨s, y, k, x⟩, c, hd, hs⟩ := hleast
  obtain rfl : s = .lesser := hs
  have hplug := plug_descend (fun _ => Side.lesser) t []
  have hbefore := before_descend_lesser t []
  rw [hd] at hplug hbefore
  refine ⟨y, k, x, c, hd, hplug.symm, ?_⟩
  simpa [Frame.before] using hbefore

end SearchTree
