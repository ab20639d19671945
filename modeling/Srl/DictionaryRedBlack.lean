import Srl.DictionaryContents
import Srl.RedBlackTree

namespace Srl

open SearchTree

def Color.isRed : Color → Bool
  | .red => true
  | .black => false

namespace Dictionary

variable {t x : BinTree Color} {h m n : Nat} {c : List (Frame Color)} {k : Color} {s : Side} {a : Ptr}

theorem redRoot_eq_false : redRoot Color.isRed t = false ↔ rootColor t = .black := by
  cases t with
  | nil => simp [redRoot, rootColor]
  | node l a k r => cases k <;> simp [redRoot, rootColor, Color.isRed]

theorem redRoot_eq_true : redRoot Color.isRed t = true ↔ rootColor t = .red := by
  cases t with
  | nil => simp [redRoot, rootColor]
  | node l a k r => cases k <;> simp [redRoot, rootColor, Color.isRed]

theorem rootColor_paint (ht : t ≠ .nil) (k : Color) : rootColor (paint k t) = k := by
  cases t with
  | nil => exact absurd rfl ht
  | node l a k r => rfl

theorem black_of_not_red (ht : ¬rootColor t = .red) : redRoot Color.isRed t = false := by
  rw [redRoot_eq_false]
  cases hk : rootColor t with
  | red => exact absurd hk ht
  | black => rfl

theorem paint_black (ht : rootColor t = .black) : paint .black t = t := by
  cases t with
  | nil => rfl
  | node l a k r =>
    obtain rfl : k = .black := ht
    rfl

/-- A red root that turns black raises the black height. -/
theorem Balanced.paint_red (hb : Balanced Color.isRed t n) (ht : rootColor t = .red) :
    Balanced Color.isRed (paint .black t) (n + 1) := by
  cases t with
  | nil => cases ht
  | node l a k r =>
    obtain rfl : k = .red := ht
    obtain ⟨i, rfl, -, hl, hr⟩ := hb
    exact Balanced.join_black (s := .lesser) hl hr rfl

theorem Balanced.paint_black (hb : Balanced Color.isRed t n) : ∃ m, Balanced Color.isRed (paint .black t) m := by
  cases hk : rootColor t with
  | red => exact ⟨_, Balanced.paint_red hb hk⟩
  | black => exact ⟨n, by rwa [Dictionary.paint_black hk]⟩

/-- Above a red parent stands a black grandparent, and the uncle is as black-high as the sibling. -/
theorem BalancedPath.of_red {f g : Frame Color} (hk : ¬f.label = .black)
    (hc : BalancedPath Color.isRed (f :: g :: c) n h) : rootColor f.sib = .black ∧ Balanced Color.isRed f.sib n ∧
      Balanced Color.isRed g.sib n ∧ BalancedPath Color.isRed c (n + 1) h := by
  obtain ⟨hf, hfs, hg, hgs, hpath⟩ := hc
  have hred : f.label.isRed = true := by
    cases hl : f.label with
    | red => rfl
    | black => exact absurd hl hk
  obtain ⟨hsib, hgl⟩ := hf hred
  have hgl : g.label.isRed = false := hgl
  rw [weight_red hred, Nat.add_zero] at hgs hpath
  rw [weight_black hgl] at hpath
  exact ⟨redRoot_eq_false.mp hsib, hfs, hgs, hpath⟩

/-- The rounds of `_validateInsert`: the tree below is in order, and so is the path above it, but they
may meet in two red nodes. -/
theorem balanced_fixInsert (ht : Balanced Color.isRed t n) (hr : rootColor t = .red)
    (hc : BalancedPath Color.isRed c n h) : ∃ m, Balanced Color.isRed (paint .black (fixInsert c t)) m := by
  induction c, t using fixInsert.induct generalizing n with
  | case1 t => exact ⟨_, Balanced.paint_red ht hr⟩
  | case2 f t =>
    rw [fixInsert, Frame.fill, paint_join]
    exact ⟨_, Balanced.join_black ht hc.2.1 rfl⟩
  | case3 f g c t hb =>
    rw [fixInsert, if_pos hb]
    refine Balanced.paint_black (n := h) (balanced_plug.mpr ⟨n, ht, hc, fun _ => ?_⟩)
    show f.label.isRed = false
    rw [hb]
    rfl
  | case4 f g c t hb hu ih =>
    rw [fixInsert, if_neg hb, if_pos hu]
    obtain ⟨-, hfs, hgs, hpath⟩ := BalancedPath.of_red hb hc
    have hg : g.sib ≠ .nil := by
      rintro hnil
      simp [hnil, rootColor] at hu
    refine ih (.join_red (Balanced.join_black ht hfs rfl) (Balanced.paint_red hgs hu) rfl ?_ ?_) (by simp) hpath
    · simp [Color.isRed]
    · rw [redRoot_eq_false, rootColor_paint hg]
  | case5 f g c t hb hu hs =>
    rw [fixInsert, if_neg hb, if_neg hu, if_pos hs]
    obtain ⟨hfr, hfs, hgs, hpath⟩ := BalancedPath.of_red hb hc
    have hlow : Balanced Color.isRed (join g.side g.addr .red f.sib g.sib) n :=
      .join_red hfs hgs rfl (redRoot_eq_false.mpr hfr) (black_of_not_red hu)
    exact Balanced.paint_black (balanced_plug.mpr ⟨_, Balanced.join_black ht hlow rfl, hpath, by simp [Color.isRed]⟩)
  | case6 f g c t hb hu hs =>
    rw [fixInsert, if_neg hb, if_neg hu, if_neg hs]
    obtain ⟨hfr, hfs, hgs, hpath⟩ := BalancedPath.of_red hb hc
    obtain ⟨b, k, x, y, rfl⟩ := exists_join g.side (t := t) (by rintro rfl; cases hr)
    obtain ⟨i, rfl, hk, hx, hy⟩ := balanced_join.mp ht
    rw [rootColor_join] at hr
    subst hr
    obtain ⟨hxr, hyr⟩ := hk rfl
    rw [(Side.eq_or_flip g.side f.side).resolve_left hs, child_join, child_flip_join]
    have hleft : Balanced Color.isRed (join g.side.flip f.addr .red x f.sib) i :=
      .join_red hx hfs rfl hxr (redRoot_eq_false.mpr hfr)
    have hright : Balanced Color.isRed (join g.side g.addr .red y g.sib) i :=
      .join_red hy hgs rfl hyr (black_of_not_red hu)
    exact Balanced.paint_black
      (balanced_plug.mpr ⟨_, Balanced.join_black hleft hright rfl, hpath, by simp [Color.isRed]⟩)

/-- An insertion keeps a red-black tree one, and the root is black but for a first entry. -/
theorem redBlack_insertTree (go : Ptr → Side) (entry : Ptr) (ht : RedBlack Color.isRed t) :
    RedBlack Color.isRed (insertTree go t entry) ∧ (t ≠ .nil → rootColor (insertTree go t entry) = .black) := by
  have hleaf : Balanced Color.isRed (.node .nil entry .red .nil) 0 := ⟨0, rfl, fun _ => ⟨rfl, rfl⟩, rfl, rfl⟩
  cases t with
  | nil => exact ⟨redBlack_iff.mpr ⟨0, hleaf⟩, fun hne => absurd rfl hne⟩
  | node l a k r =>
    obtain ⟨h, hb⟩ := redBlack_iff.mp ht
    rw [← plug_nil (.node l a k r), ← plug_descend go] at hb
    obtain ⟨n, hnil, hc, -⟩ := balanced_plug.mp hb
    obtain rfl : n = 0 := hnil
    refine ⟨redBlack_iff.mpr (balanced_fixInsert hleaf rfl hc), fun _ => rootColor_paint ?_ _⟩
    intro hnil
    have hm : entry ∈ (fixInsert (descend go (.node l a k r) []) (.node .nil entry .red .nil)).inorder := by
      rw [inorder_fixInsert (by simp)]
      simp
    simp [hnil] at hm

theorem removeFix_red (hx : rootColor x = .red) : removeFix c x = plug c (paint .black x) := by
  cases c with
  | nil => rfl
  | cons f c => rw [removeFix, if_pos hx]

/-- A removal keeps a red-black tree one unless it takes a black leaf below the root out, which
`_removeFixTree` is not called for. The path may stand at other addresses meanwhile. -/
theorem redBlack_dropNode {c' : List (Frame Color)} (same : c'.map Frame.shape = c.map Frame.shape)
    (hb : RedBlack Color.isRed (plug c (join s a k x .nil))) (hroot : rootColor (plug c (join s a k x .nil)) = .black)
    (hx : x ≠ .nil → x.ptr ≠ NULL) :
    (RedBlack Color.isRed (dropNode k c' x) ∧ rootColor (dropNode k c' x) = .black) ↔
      k = .red ∨ x ≠ .nil ∨ c = [] := by
  obtain ⟨h, hb⟩ := redBlack_iff.mp hb
  obtain ⟨n, hjoin, hc, -⟩ := balanced_plug.mp hb
  obtain ⟨i, rfl, hk, hxb, hnil⟩ := balanced_join.mp hjoin
  obtain rfl : i = 0 := hnil
  have hc' := hc.congr same
  have hblack : ∀ {u}, redRoot Color.isRed u = false → rootColor (plug c' u) = .black := fun hu => by
    rw [← redRoot_eq_false, redRoot_plug_congr same]
    exact black_plug (redRoot_eq_false.mpr hroot) hu
  by_cases hxn : x = .nil
  · subst hxn
    have hdrop : dropNode k c' .nil = plug c' .nil := if_neg fun hp => hp.2 rfl
    rw [hdrop]
    cases k with
    | red =>
      exact ⟨fun _ => .inl rfl, fun _ => ⟨redBlack_iff.mpr ⟨h, balanced_plug.mpr ⟨0, rfl, hc', nofun⟩⟩, hblack rfl⟩⟩
    | black =>
      cases c with
      | nil =>
        obtain rfl := List.map_eq_nil_iff.mp same
        exact ⟨fun _ => .inr (.inr rfl), fun _ => ⟨redBlack_iff.mpr ⟨0, rfl⟩, rfl⟩⟩
      | cons f c =>
        obtain ⟨f', c', rfl, -⟩ := List.map_eq_cons_iff.mp same
        refine ⟨fun hrb => ?_, by simp⟩
        obtain ⟨h', hb'⟩ := redBlack_iff.mp hrb.1
        obtain ⟨m, hm, hcm, -⟩ := balanced_plug.mp hb'
        obtain rfl : m = 0 := hm
        exact absurd (hcm.unique hc') (by decide)
  · have hxr : rootColor x = .red := redRoot_eq_true.mp (hxb.nil_or_red.resolve_left hxn)
    have hkb : k = .black := by
      cases k with
      | red => exact absurd (redRoot_eq_false.mp (hk rfl).1) (by simp [hxr])
      | black => rfl
    subst hkb
    have hpaint : redRoot Color.isRed (paint .black x) = false := redRoot_eq_false.mpr (rootColor_paint hxn _)
    rw [dropNode, if_pos ⟨rfl, hx hxn⟩, removeFix_red hxr]
    refine ⟨fun _ => .inr (.inl hxn),
      fun _ => ⟨redBlack_iff.mpr ⟨h, balanced_plug.mpr ⟨1, ?_, hc', ?_⟩⟩, hblack hpaint⟩⟩
    · exact Balanced.paint_red hxb hxr
    · simp [hpaint]

end Dictionary

end Srl
