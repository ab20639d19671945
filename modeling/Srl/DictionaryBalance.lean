import Srl.DictionaryRotate

namespace Srl

open SearchTree

variable {Key Value : Type}

namespace Dictionary

/-- Color of a root; a missing node counts as black. -/
def rootColor : BinTree Color → Color
  | .nil => .black
  | .node _ _ k _ => k

def paint (k : Color) : BinTree Color → BinTree Color
  | .nil => .nil
  | .node l a _ r => .node l a k r

@[simp] theorem rootColor_join (s : Side) (a : Nat) (k : Color) (x y : BinTree Color) :
    rootColor (join s a k x y) = k := by cases s <;> rfl

@[simp] theorem paint_join (s : Side) (a : Nat) (k k' : Color) (x y : BinTree Color) :
    paint k' (join s a k x y) = join s a k' x y := by cases s <;> rfl

@[simp] theorem ptr_paint (k : Color) (t : BinTree Color) : (paint k t).ptr = t.ptr := by cases t <;> rfl

@[simp] theorem inorder_paint (k : Color) (t : BinTree Color) : (paint k t).inorder = t.inorder := by
  cases t <;> rfl

/-- `_validateInsert` on the tree itself, from the entry up: the path is used up two
ancestors at a time. -/
def fixInsert : List (Frame Color) → BinTree Color → BinTree Color
  | [], t => t
  | [f], t => f.fill t
  | f :: g :: c, t =>
    if f.label = .black then plug (f :: g :: c) t
    else if rootColor g.sib = .red then
      fixInsert c (join g.side g.addr .red (join f.side f.addr .black t f.sib) (paint .black g.sib))
    else if f.side = g.side then
      plug c (join g.side f.addr .black t (join g.side g.addr .red f.sib g.sib))
    else
      plug c (join g.side t.ptr .black (join f.side f.addr .red (t.child g.side) f.sib)
        (join g.side g.addr .red (t.child f.side) g.sib))

theorem inorder_fixInsert {c : List (Frame Color)} {t : BinTree Color} (ht : t ≠ .nil) :
    (fixInsert c t).inorder = (plug c t).inorder := by
  induction c, t using fixInsert.induct with
  | case1 t => rfl
  | case2 f t => rfl
  | case3 f g c t hb => simp [fixInsert, hb]
  | case4 f g c t hb hr ih =>
    simp only [fixInsert, hb, hr, if_true, if_false]
    rw [ih (by simp), plug_cons, plug_cons]
    refine inorder_plug_congr c ?_
    obtain ⟨sf, af, kf, tf⟩ := f
    obtain ⟨sg, ag, kg, tg⟩ := g
    cases sf <;> cases sg <;> simp [Frame.fill, join]
  | case5 f g c t hb hr hs =>
    simp only [fixInsert, hb, hr, hs, if_true, if_false, plug_cons]
    refine inorder_plug_congr c ?_
    obtain ⟨sf, af, kf, tf⟩ := f
    obtain ⟨sg, ag, kg, tg⟩ := g
    cases sf <;> cases sg <;> simp_all [Frame.fill, join]
  | case6 f g c t hb hr hs =>
    simp only [fixInsert, hb, hr, hs, if_false, plug_cons]
    refine inorder_plug_congr c ?_
    obtain ⟨sf, af, kf, tf⟩ := f
    obtain ⟨sg, ag, kg, tg⟩ := g
    cases t with
    | nil => exact absurd rfl ht
    | node l a k r => cases sf <;> cases sg <;> simp_all [Frame.fill, join, BinTree.child]

/-- The last rotations of `_removeFixTree` at a parent `a` with the entry `t` on side `s`
and the sibling `w`. -/
def finishRemove (s : Side) (a : Nat) (k : Color) (t w : BinTree Color) : BinTree Color :=
  let inner := w.child s
  let outer := w.child s.flip
  if rootColor outer = .black then
    join s.flip inner.ptr k (join s w.ptr .black (inner.child s.flip) outer)
      (join s.flip a .black (inner.child s) t)
  else join s.flip w.ptr k (paint .black outer) (join s.flip a .black inner t)

/-- A round of `_removeFixTree` at a sibling that is not red; `up` goes on from the parent. -/
def removeFixNear (f : Frame Color) (c : List (Frame Color)) (t : BinTree Color)
    (up : BinTree Color → BinTree Color) : BinTree Color :=
  match f.sib with
  | .nil => plug (f :: c) (paint .black t)
  | .node l _ _ r =>
    if rootColor l = .black ∧ rootColor r = .black then
      up (join f.side f.addr f.label t (paint .red f.sib))
    else paint .black (plug c (finishRemove f.side f.addr f.label t f.sib))

/-- The parent and the red sibling after their rotation, as frames above the entry. -/
def lowered (f : Frame Color) : Frame Color :=
  { f with label := .red, sib := f.sib.child f.side }

def raised (f : Frame Color) : Frame Color :=
  { side := f.side, addr := f.sib.ptr, label := .black, sib := f.sib.child f.side.flip }

/-- `_removeFixTree` on the tree itself. -/
def removeFix : List (Frame Color) → BinTree Color → BinTree Color
  | [], t => paint .black t
  | f :: c, t =>
    if rootColor t = .red then plug (f :: c) (paint .black t)
    else if rootColor f.sib = .red then
      removeFixNear (lowered f) (raised f :: c) t fun u => plug (raised f :: c) (paint .black u)
    else removeFixNear f c t fun u => removeFix c u

theorem inorder_finishRemove {s : Side} {a : Nat} {k : Color} {t w : BinTree Color}
    (hw : w ≠ .nil) (hr : rootColor (w.child s.flip) = .black → w.child s ≠ .nil) :
    (finishRemove s a k t w).inorder = (join s a k t w).inorder := by
  obtain ⟨b, kb, x, y, rfl⟩ := exists_join s hw
  simp only [child_join, child_flip_join] at hr
  by_cases hy : rootColor y = .black
  · obtain ⟨i, ki, u, v, rfl⟩ := exists_join s (hr hy)
    cases s <;> simp [finishRemove, hy, join, BinTree.child, Side.flip] at *
  · cases s <;> simp [finishRemove, hy, join, BinTree.child, Side.flip]

theorem inorder_removeFixNear {f : Frame Color} {c : List (Frame Color)} {t : BinTree Color}
    {up : BinTree Color → BinTree Color} (hup : ∀ u, (up u).inorder = (plug c u).inorder) :
    (removeFixNear f c t up).inorder = (plug (f :: c) t).inorder := by
  unfold removeFixNear
  split
  next => exact inorder_plug_congr _ (by simp)
  next l b kb r hw =>
    split
    next hb =>
      rw [hup, plug_cons]
      refine inorder_plug_congr c ?_
      obtain ⟨s, a, k, w⟩ := f
      cases s <;> simp [Frame.fill, join]
    next hb =>
      rw [inorder_paint, plug_cons]
      refine inorder_plug_congr c (inorder_finishRemove (by simp [hw]) fun ho hi => hb ?_)
      cases hs : f.side <;> simp_all [BinTree.child, Side.flip, rootColor]

theorem inorder_removeFix (c : List (Frame Color)) (t : BinTree Color) :
    (removeFix c t).inorder = (plug c t).inorder := by
  induction c generalizing t with
  | nil => simp [removeFix]
  | cons f c ih =>
    unfold removeFix
    split
    next => exact inorder_plug_congr _ (by simp)
    next =>
      split
      next hw =>
        rw [inorder_removeFixNear fun u => inorder_plug_congr _ (by simp)]
        simp only [plug_cons]
        refine inorder_plug_congr c ?_
        obtain ⟨s, a, k, w⟩ := f
        cases w with
        | nil => simp [rootColor] at hw
        | node l b kb r => cases s <;> simp [Frame.fill, lowered, raised, join, BinTree.child, Side.flip]
      next => exact inorder_removeFixNear fun u => ih u

end Dictionary

end Srl
