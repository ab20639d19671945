import Srl.Dictionary

namespace Srl

open SearchTree

variable {Key Value : Type}

@[simp] theorem Entry.child_withChild (e : Entry Key Value) (s : Side) (q : Ptr) :
    (e.withChild s q).child s = q := by cases s <;> rfl

@[simp] theorem Entry.child_flip_withChild (e : Entry Key Value) (s : Side) (q : Ptr) :
    (e.withChild s q).child s.flip = e.child s.flip := by cases s <;> rfl

@[simp] theorem Entry.child_withChild_flip (e : Entry Key Value) (s : Side) (q : Ptr) :
    (e.withChild s.flip q).child s = e.child s := by cases s <;> rfl

@[simp] theorem Entry.parent_withChild (e : Entry Key Value) (s : Side) (q : Ptr) :
    (e.withChild s q).parent = e.parent := by cases s <;> rfl

@[simp] theorem Entry.color_withChild (e : Entry Key Value) (s : Side) (q : Ptr) :
    (e.withChild s q).color = e.color := by cases s <;> rfl

@[simp] theorem Entry.parent_withParent (e : Entry Key Value) (p : Ptr) :
    (e.withParent p).parent = p := rfl

@[simp] theorem Entry.color_withParent (e : Entry Key Value) (p : Ptr) :
    (e.withParent p).color = e.color := rfl

@[simp] theorem Entry.child_withParent (e : Entry Key Value) (s : Side) (p : Ptr) :
    (e.withParent p).child s = e.child s := by cases s <;> rfl

@[simp] theorem Entry.parent_withColor (e : Entry Key Value) (k : Color) :
    (e.withColor k).parent = e.parent := rfl

@[simp] theorem Entry.color_withColor (e : Entry Key Value) (k : Color) :
    (e.withColor k).color = k := rfl

@[simp] theorem Entry.child_withColor (e : Entry Key Value) (s : Side) (k : Color) :
    (e.withColor k).child s = e.child s := by cases s <;> rfl

/-- What the search tree does not touch: the list links and the payload of an entry. -/
def Entry.data (e : Entry Key Value) : Ptr × Ptr × Key × Value × Int :=
  (e.prev, e.next, e.key, e.value, e.hash)

@[simp] theorem Entry.data_withChild (e : Entry Key Value) (s : Side) (q : Ptr) :
    (e.withChild s q).data = e.data := by cases s <;> rfl

@[simp] theorem Entry.data_withParent (e : Entry Key Value) (p : Ptr) :
    (e.withParent p).data = e.data := rfl

@[simp] theorem Entry.data_withColor (e : Entry Key Value) (k : Color) :
    (e.withColor k).data = e.data := rfl

namespace Dictionary

/-- The entry at `a` has the given tree links, its children told by the side `s`. -/
def NodeAt (h : Ptr → Option (Entry Key Value)) (a p : Ptr) (c : Color) (s : Side) (x y : Ptr) :
    Prop :=
  a ≠ NULL ∧ ∃ e, h a = some e ∧ e.parent = p ∧ e.color = c ∧ e.child s = x ∧ e.child s.flip = y

theorem nodeAt_flip {h : Ptr → Option (Entry Key Value)} {a p : Ptr} {c : Color} {s : Side}
    {x y : Ptr} : NodeAt h a p c s.flip y x ↔ NodeAt h a p c s x y := by
  cases s <;> simp [NodeAt, Side.flip] <;> grind

/-- The heap holds the nodes of a tree, the root of it under the parent `p`. -/
def Stored (h : Ptr → Option (Entry Key Value)) : BinTree Color → Ptr → Prop
  | .nil, _ => True
  | .node l a c r, p => NodeAt h a p c .lesser l.ptr r.ptr ∧ Stored h l a ∧ Stored h r a

@[simp] theorem stored_nil {h : Ptr → Option (Entry Key Value)} {p : Ptr} :
    Stored h .nil p := trivial

theorem stored_join {h : Ptr → Option (Entry Key Value)} {s : Side} {a p : Ptr} {c : Color}
    {x y : BinTree Color} :
    Stored h (join s a c x y) p ↔
      NodeAt h a p c s x.ptr y.ptr ∧ Stored h x a ∧ Stored h y a := by
  cases s with
  | lesser => rfl
  | greater =>
    simp only [join, Stored]
    rw [← nodeAt_flip (s := .greater)]
    exact and_congr_right fun _ => and_comm

theorem Stored.congr {h h' : Ptr → Option (Entry Key Value)} {t : BinTree Color} {p : Ptr}
    (hs : Stored h t p) (same : ∀ a ∈ t.inorder, h' a = h a) : Stored h' t p := by
  induction t generalizing p with
  | nil => trivial
  | node l a c r ihl ihr =>
    obtain ⟨hn, hl, hr⟩ := hs
    refine ⟨?_, ihl hl fun b hb => same b (by simp [hb]), ihr hr fun b hb => same b (by simp [hb])⟩
    simpa [NodeAt, same a (by simp)] using hn

theorem Stored.live {h : Ptr → Option (Entry Key Value)} {t : BinTree Color} {p a : Ptr}
    (hs : Stored h t p) (ha : a ∈ t.inorder) : a ≠ NULL ∧ ∃ e, h a = some e := by
  induction t generalizing p with
  | nil => simp at ha
  | node l b c r ihl ihr =>
    obtain ⟨⟨hz, e, he, _⟩, hl, hr⟩ := hs
    rcases List.mem_append.mp ha with ha | ha
    · exact ihl hl ha
    · rcases List.mem_cons.mp ha with rfl | ha
      · exact ⟨hz, e, he⟩
      · exact ihr hr ha

theorem Stored.ptr_ne_null {h : Ptr → Option (Entry Key Value)} {t : BinTree Color} {p : Ptr}
    (hs : Stored h t p) (ht : t ≠ .nil) : t.ptr ≠ NULL :=
  (hs.live (ptr_mem ht)).1

/-- Rewriting the parent link of the root moves a tree under another parent. -/
theorem Stored.reparent {h h' : Ptr → Option (Entry Key Value)} {t : BinTree Color} {p q : Ptr}
    (hs : Stored h t p) (hn : t.inorder.Nodup)
    (hroot : t.ptr ≠ NULL → h' t.ptr = (h t.ptr).map fun e => e.withParent q)
    (same : ∀ a ∈ t.inorder, a ≠ t.ptr → h' a = h a) : Stored h' t q := by
  cases t with
  | nil => trivial
  | node l a c r =>
    obtain ⟨⟨hz, e, he, _, hc, hx, hy⟩, hl, hr⟩ := hs
    simp only [inorder_node, List.nodup_append', List.nodup_cons, List.disjoint_cons_right] at hn
    refine ⟨⟨hz, e.withParent q, by simpa [he] using hroot hz, rfl, hc, hx, hy⟩, ?_, ?_⟩
    · exact hl.congr fun b hb => same b (by simp [hb]) (by rintro rfl; simp_all)
    · exact hr.congr fun b hb => same b (by simp [hb]) (by rintro rfl; simp_all)

/-- The heap holds the ancestors on a path whose hole points to `q`, and their other children. -/
def StoredPath (h : Ptr → Option (Entry Key Value)) : List (Frame Color) → Ptr → Prop
  | [], _ => True
  | f :: c, q => NodeAt h f.addr (above c) f.label f.side q f.sib.ptr ∧
      Stored h f.sib f.addr ∧ StoredPath h c f.addr

theorem StoredPath.congr {h h' : Ptr → Option (Entry Key Value)} {c : List (Frame Color)} {q : Ptr}
    (hs : StoredPath h c q) (same : ∀ a ∈ pathAddrs c, h' a = h a) : StoredPath h' c q := by
  induction c generalizing q with
  | nil => trivial
  | cons f c ih =>
    obtain ⟨hn, hsib, hc⟩ := hs
    refine ⟨by simpa [NodeAt, same f.addr (by simp)] using hn, ?_, ?_⟩
    · exact hsib.congr fun a ha => same a (by simp [ha])
    · exact ih hc fun a ha => same a (by simp [ha])

/-- The tree of the dictionary is `t` under the path `c`. -/
structure Focus (d : Dictionary Key Value) (c : List (Frame Color)) (t : BinTree Color) : Prop where
  path : StoredPath d.heap c t.ptr
  sub : Stored d.heap t (above c)
  root : d.root = (plug c t).ptr
  nodup : (plug c t).inorder.Nodup

theorem focus_cons {d : Dictionary Key Value} {f : Frame Color} {c : List (Frame Color)}
    {t : BinTree Color} : Focus d (f :: c) t ↔ Focus d c (f.fill t) := by
  constructor
  · rintro ⟨⟨hn, hsib, hc⟩, hs, hr, hd⟩
    exact ⟨by simpa using hc, stored_join.mpr ⟨hn, hs, hsib⟩, hr, hd⟩
  · rintro ⟨hc, hs, hr, hd⟩
    obtain ⟨hn, hs, hsib⟩ := stored_join.mp hs
    exact ⟨⟨hn, hsib, by simpa using hc⟩, hs, hr, hd⟩

/-- Moving the focus along a path. -/
theorem focus_plug {d : Dictionary Key Value} {c c' : List (Frame Color)} {t : BinTree Color} :
    Focus d (c ++ c') t ↔ Focus d c' (plug c t) := by
  induction c generalizing t with
  | nil => rfl
  | cons f c ih =>
    simp only [List.cons_append, plug_cons, ← ih]
    exact focus_cons

theorem focus_root {d : Dictionary Key Value} {c : List (Frame Color)} {t : BinTree Color} :
    Focus d c t ↔ Focus d [] (plug c t) := by
  have h : Focus d (c ++ []) t ↔ Focus d [] (plug c t) := focus_plug
  rwa [List.append_nil] at h

theorem Focus.node {d : Dictionary Key Value} {c : List (Frame Color)} {s : Side} {a : Ptr}
    {k : Color} {x y : BinTree Color} (hf : Focus d c (join s a k x y)) :
    NodeAt d.heap a (above c) k s x.ptr y.ptr :=
  (stored_join.mp hf.sub).1

theorem Focus.frame {d : Dictionary Key Value} {f : Frame Color} {c : List (Frame Color)}
    {t : BinTree Color} (hf : Focus d (f :: c) t) :
    NodeAt d.heap f.addr (above c) f.label f.side t.ptr f.sib.ptr := hf.path.1

theorem Focus.ne_root {d : Dictionary Key Value} {f : Frame Color} {c : List (Frame Color)}
    {t : BinTree Color} (hf : Focus d (f :: c) t) (ht : t ≠ .nil) : t.ptr ≠ d.root := by
  rw [hf.root]
  exact plug_cons_ptr_ne ht hf.nodup

/-- Both dictionaries have the same entries up to their tree links and colors. -/
structure SameData (d d' : Dictionary Key Value) : Prop where
  data : ∀ a, (d'.heap a).map Entry.data = (d.heap a).map Entry.data
  brk : d'.brk = d.brk
  size : d'.size = d.size
  first : d'.first = d.first
  last : d'.last = d.last

theorem SameData.refl (d : Dictionary Key Value) : SameData d d := ⟨fun _ => rfl, rfl, rfl, rfl, rfl⟩

theorem SameData.trans {d d' d'' : Dictionary Key Value} (h : SameData d d')
    (h' : SameData d' d'') : SameData d d'' :=
  ⟨fun a => (h'.data a).trans (h.data a), h'.brk.trans h.brk, h'.size.trans h.size,
    h'.first.trans h.first, h'.last.trans h.last⟩

theorem SameData.of_root {d d' : Dictionary Key Value} {q : Ptr}
    (h : SameData { d with root := q } d') : SameData d d' :=
  ⟨h.data, h.brk, h.size, h.first, h.last⟩

theorem store_eq {d : Dictionary Key Value} {p : Ptr} {e : Entry Key Value}
    (f : Entry Key Value → Entry Key Value) (he : d.heap p = some e) :
    d.store p f = some { d with heap := Function.update d.heap p (some (f e)) } := by
  simp [store, he]

theorem sameData_store {d d' : Dictionary Key Value} {p : Ptr}
    {f : Entry Key Value → Entry Key Value} (hf : ∀ e, (f e).data = e.data)
    (h : d.store p f = some d') : SameData d d' := by
  obtain ⟨e, he, rfl⟩ := Option.map_eq_some_iff.mp h
  refine ⟨fun a => ?_, rfl, rfl, rfl, rfl⟩
  by_cases ha : a = p
  · subst ha; simp [he, hf]
  · simp [Function.update_of_ne ha]

/-- Writing the color of the focused node. -/
theorem Focus.setColor {d : Dictionary Key Value} {c : List (Frame Color)} {s : Side} {a : Ptr}
    {k : Color} {x y : BinTree Color} (hf : Focus d c (join s a k x y)) (k' : Color) :
    ∃ d', d.setColor a k' = some d' ∧ Focus d' c (join s a k' x y) ∧ SameData d d' := by
  obtain ⟨hz, e, he, hp, _, hx, hy⟩ := hf.node
  obtain ⟨hnode, hpath, hdis⟩ := nodup_plug hf.nodup
  obtain ⟨hax, hay, _, _, _⟩ := nodup_join.mp hnode
  obtain ⟨-, hsx, hsy⟩ := stored_join.mp hf.sub
  have hstore := store_eq (fun e => e.withColor k') he
  refine ⟨_, hstore, ⟨?_, stored_join.mpr ⟨?_, ?_, ?_⟩, ?_, ?_⟩, sameData_store (fun e => by simp) hstore⟩
  · have hc : StoredPath d.heap c a := by simpa using hf.path
    simp only [ptr_join]
    exact hc.congr fun b hb => Function.update_of_ne (by rintro rfl; exact hdis (by simp) hb) ..
  · exact ⟨hz, e.withColor k', Function.update_self .., hp, rfl, by simpa using hx, by simpa using hy⟩
  · exact hsx.congr fun b hb => Function.update_of_ne (by rintro rfl; exact hax hb) ..
  · exact hsy.congr fun b hb => Function.update_of_ne (by rintro rfl; exact hay hb) ..
  · exact hf.root.trans (ptr_plug_congr c (by simp))
  · rw [inorder_plug_congr c (inorder_join_label s a k' k x y)]
    exact hf.nodup

end Dictionary

end Srl
