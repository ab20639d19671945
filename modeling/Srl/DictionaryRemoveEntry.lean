import Srl.DictionaryRemoveFix

namespace Srl

open SearchTree

variable {Key Value : Type} {d : Dictionary Key Value} {c : List (Frame Color)} {t : BinTree Color}

namespace Dictionary

/-- The subtree `x` in the place of a node of color `k`, repaired when `_remove` does so. -/
def dropNode (k : Color) (c : List (Frame Color)) (x : BinTree Color) : BinTree Color :=
  if k = .black ∧ x.ptr ≠ NULL then removeFix c x else plug c x

/-- `_remove` of the root of a subtree, on the tree itself. -/
def removeAt (c : List (Frame Color)) : BinTree Color → BinTree Color
  | .nil => plug c .nil
  | .node .nil _ k r => dropNode k c r
  | .node l _ k .nil => dropNode k c l
  | .node l _ k r =>
    match descend (fun _ => .lesser) r [] with
    | [] => plug c l
    | f :: up => dropNode f.label (up ++ ⟨.greater, f.addr, k, l⟩ :: c) f.sib

theorem inorder_dropNode (k : Color) (c : List (Frame Color)) (x : BinTree Color) :
    (dropNode k c x).inorder = (plug c x).inorder := by
  unfold dropNode
  split
  next => exact inorder_removeFix c x
  next => rfl

/-- A removal takes one address out of the traversal. -/
theorem inorder_removeAt (c : List (Frame Color)) (l r : BinTree Color) (a : Ptr) (k : Color) :
    (removeAt c (.node l a k r)).inorder = before c ++ l.inorder ++ r.inorder ++ after c := by
  by_cases hl : l = .nil
  · simp [hl, removeAt, inorder_dropNode, inorder_plug]
  · obtain ⟨b, kb, x, y, rfl⟩ := exists_join .lesser hl
    by_cases hr : r = .nil
    · simp [hr, removeAt, join, inorder_dropNode, inorder_plug]
    · obtain ⟨m, km, z, up, hdown, hplug, hup⟩ := exists_least hr
      have hrun : removeAt c (.node (join .lesser b kb x y) a k r) =
          dropNode km (up ++ ⟨.greater, m, k, join .lesser b kb x y⟩ :: c) z := by
        cases r with
        | nil => exact absurd rfl hr
        | node u v w z' => simp [removeAt, join, hdown]
      rw [hrun, inorder_dropNode, plug_append, hplug, inorder_plug]
      simp [inorder_plug, hup, Frame.before, Frame.after]

theorem successorLoop_spec {fuel : Nat} (hf : Focus d c t) (ht : t ≠ .nil)
    (hfuel : t.inorder.length ≤ fuel) :
    d.successorLoop .lesser fuel t.ptr = some (above (descend (fun _ => .lesser) t c)) := by
  induction t generalizing c fuel with
  | nil => exact absurd rfl ht
  | node l a k r ihl ihr =>
    obtain ⟨fuel, rfl⟩ : ∃ n, fuel = n + 1 := ⟨fuel - 1, by simp at hfuel; omega⟩
    obtain ⟨_, e, he, _, _, hl, _⟩ := hf.sub.1
    have hf' : Focus d (⟨.lesser, a, k, r⟩ :: c) l := focus_cons.mpr hf
    by_cases hnil : l = .nil
    · subst hnil
      simp only [ptr_nil] at hl
      simp [successorLoop, he, hl, descend]
    · have hrec := ihl hf' hnil (show l.inorder.length ≤ fuel by simp at hfuel; omega)
      simp [successorLoop, he, hl, hf'.ptr_ne_null hnil, hrec, descend]

/-- The successor of an entry with a greater child is the least node below that child. -/
theorem Focus.successor_eq {l r z : BinTree Color} {a m : Ptr} {k km : Color} {up : List (Frame Color)}
    (hf : Focus d c (.node l a k r)) (hr : r ≠ .nil)
    (hdown : descend (fun _ => .lesser) r [] = ⟨.lesser, m, km, z⟩ :: up)
    (hbrk : (plug c (.node l a k r)).inorder.length ≤ d.brk) : d.successor a = some m := by
  obtain ⟨_, e, he, _, _, _, heg⟩ := hf.sub.1
  have heg : e.greater = r.ptr := heg
  have hfr : Focus d (⟨.greater, a, k, l⟩ :: c) r := focus_cons.mpr hf
  have hloop := successorLoop_spec hfr hr
    (show r.inorder.length ≤ d.brk by simp [inorder_plug] at hbrk; omega)
  rw [descend_append, hdown] at hloop
  simp [successor, he, heg, hfr.ptr_ne_null hr, hloop]

theorem dropNode_spec {k : Color} (hf : Focus d c t) (hbrk : c.length ≤ d.brk) :
    ∃ d', (if k = .black ∧ t.ptr ≠ NULL then d.removeFixTree t.ptr else some d) = some d' ∧
      SameData d d' ∧ Focus d' [] (dropNode k c t) := by
  by_cases h : k = .black ∧ t.ptr ≠ NULL
  · have ht : t ≠ .nil := by rintro rfl; exact h.2 rfl
    simpa [dropNode, h] using removeFixTree_spec hf ht hbrk
  · exact ⟨d, by rw [if_neg h], .refl d, by simpa only [dropNode, if_neg h] using focus_root.mp hf⟩

/-- `_remove` of an entry that lacks a child. -/
theorem removeEntry_single {s : Side} {a : Ptr} {k : Color} {x : BinTree Color}
    (hf : Focus d c (join s a k x .nil)) (hx : x ≠ .nil ∨ s = .greater) (hbrk : c.length ≤ d.brk) :
    ∃ d', d.removeEntry a = some d' ∧ SameData d d' ∧ Focus d' [] (dropNode k c x) := by
  obtain ⟨_, e, he, _, hk, hc, hnil⟩ := hf.node
  obtain ⟨d₁, hd₁, hdata₁, hf₁, hsame₁⟩ := splice_spec hf
  obtain ⟨d₂, hd₂, hdata₂, hf₂⟩ := dropNode_spec (k := k) hf₁ (by rw [hdata₁.brk]; exact hbrk)
  have hx' : (if e.lesser ≠ NULL then e.lesser else e.greater) = x.ptr := by
    cases s with
    | lesser =>
      have hxz : x.ptr ≠ NULL := hf.sub.2.1.ptr_ne_null (hx.resolve_right (by decide))
      have hl : e.lesser = x.ptr := hc
      simp [hl, hxz]
    | greater =>
      have hl : e.lesser = NULL := hnil
      have hg : e.greater = x.ptr := hc
      simp [hl, hg]
  have hlack : e.lesser = NULL ∨ e.greater = NULL := by
    cases s
    · exact Or.inr hnil
    · exact Or.inl hnil
  refine ⟨d₂, ?_, hdata₁.trans hdata₂, hf₂⟩
  simp only [removeEntry, he, Option.bind_eq_bind, Option.bind_some, hlack, if_true, hx', hd₁, hsame₁,
    replaceEntry, hk]
  exact hd₂

/-- `_remove` of an entry with two children: its successor takes its place. -/
theorem removeEntry_double {l r : BinTree Color} {a : Ptr} {k : Color}
    (hf : Focus d c (.node l a k r)) (hl : l ≠ .nil) (hr : r ≠ .nil)
    (hbrk : (plug c (.node l a k r)).inorder.length ≤ d.brk) :
    ∃ d', d.removeEntry a = some d' ∧ SameData d d' ∧ Focus d' [] (removeAt c (.node l a k r)) := by
  obtain ⟨_, e, he, _, _, hel, heg⟩ := hf.sub.1
  have heg : e.greater = r.ptr := heg
  have hel : e.lesser = l.ptr := hel
  have hfr : Focus d (⟨.greater, a, k, l⟩ :: c) r := focus_cons.mpr hf
  have hfl : Focus d (⟨.lesser, a, k, r⟩ :: c) l := focus_cons.mpr hf
  obtain ⟨m, km, z, up, hdown, hplug, hup⟩ := exists_least hr
  have hsucc := hf.successor_eq hr hdown hbrk
  have hfm : Focus d (up ++ ⟨.greater, a, k, l⟩ :: c) (join .greater m km z .nil) :=
    focus_plug.mpr (hplug ▸ hfr)
  obtain ⟨hnode, -, -⟩ := nodup_plug hf.nodup
  obtain ⟨hnm, -, hdis⟩ := nodup_plug hfm.nodup
  have hma : m ≠ a := by
    rintro rfl
    have har := (nodup_join (s := .lesser).mp hnode).2.1
    exact har (by simp [hplug])
  obtain ⟨hmz, n, hn, _, hkn, hng, hnl⟩ := hfm.node
  have hnl : n.lesser = NULL := hnl
  have hng : n.greater = z.ptr := hng
  obtain ⟨d₁, hd₁, hdata₁, hf₁, hsame₁⟩ := splice_spec hfm
  have hnew : m ∉ (plug (up ++ ⟨.greater, a, k, l⟩ :: c) z).inorder := by
    rw [mem_plug, not_or]
    exact ⟨(nodup_join.mp hnm).1, hdis (by simp)⟩
  rw [plug_append, plug_cons] at hnew
  obtain ⟨d₂, hd₂, hdata₂, hf₂⟩ :=
    replaceEntry_spec (focus_cons.mp (focus_plug.mp hf₁)) (hsame₁.trans hn) hmz hnew
  have hf₂ : Focus d₂ (up ++ ⟨.greater, m, k, l⟩ :: c) z := focus_plug.mpr (focus_cons.mpr hf₂)
  have hlen := length_le_plug (up ++ ⟨.greater, a, k, l⟩ :: c) (join .greater m km z .nil)
  rw [plug_append, show plug up (join .greater m km z .nil) = r from hplug.symm] at hlen
  obtain ⟨d₃, hd₃, hdata₃, hf₃⟩ := dropNode_spec (k := km) hf₂ (by
    rw [hdata₂.brk, hdata₁.brk]
    simpa using Nat.le_trans hlen hbrk)
  refine ⟨d₃, ?_, hdata₁.trans (hdata₂.trans hdata₃), ?_⟩
  · simp only [removeEntry, he, hel, heg, hfl.ptr_ne_null hl, hfr.ptr_ne_null hr, hsucc, hn, hnl, hng, hd₁,
      hsame₁, hd₂, hkn, Option.bind_eq_bind, Option.bind_some, or_self, if_false, ne_eq, not_true]
    exact hd₃
  · obtain ⟨b, kb, u, v, rfl⟩ := exists_join .lesser hl
    cases r with
    | nil => exact absurd rfl hr
    | node u' b' kb' v' => simpa [removeAt, join, hdown] using hf₃

theorem removeEntry_spec {l r : BinTree Color} {a : Ptr} {k : Color}
    (hf : Focus d c (.node l a k r)) (hbrk : (plug c (.node l a k r)).inorder.length ≤ d.brk) :
    ∃ d', d.removeEntry a = some d' ∧ SameData d d' ∧ Focus d' [] (removeAt c (.node l a k r)) := by
  have hlen := Nat.le_trans (length_le_plug c (.node l a k r)) hbrk
  by_cases hl : l = .nil
  · subst hl
    exact removeEntry_single (s := .greater) hf (Or.inr rfl) hlen
  · by_cases hr : r = .nil
    · subst hr
      obtain ⟨d', hd, hdata, hf'⟩ := removeEntry_single (s := .lesser) hf (Or.inl hl) hlen
      obtain ⟨b, kb, u, v, rfl⟩ := exists_join .lesser hl
      exact ⟨d', hd, hdata, hf'⟩
    · exact removeEntry_double hf hl hr hbrk

end Dictionary

end Srl
