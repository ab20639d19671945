import Srl.DictionaryMap
import Srl.DictionaryRedBlack

namespace Srl

open SearchTree

variable {Key Value : Type} {d : Dictionary Key Value} {t : BinTree Color} {c : List (Frame Color)} {order : List Ptr}
  {m : List (Key × Value)} {a y : Ptr} {k : Color} {l r x : BinTree Color} {s : Side}

namespace Dictionary

/-- The search tree of the dictionary is the red-black tree `t`. -/
structure Balances (d : Dictionary Key Value) (t : BinTree Color) : Prop where
  focus : Focus d [] t
  ordered : d.Ordered t
  root : rootColor t = .black
  redBlack : RedBlack Color.isRed t

section Insertion

variable [Hasher Key] [Inhabited Value]

/-- The entries are added one after the other. -/
def addAll (d : Dictionary Key Value) : List (Key × Value) → Option (Except DictException (Dictionary Key Value))
  | [] => some (.ok d)
  | (key, value) :: entries => do
    match ← d.add key value with
    | .ok d => d.addAll entries
    | .error e => some (.error e)

/-- A dictionary that `add` alone has built from the entries `m`. -/
def Grown (d : Dictionary Key Value) (m : List (Key × Value)) : Prop :=
  ∃ t order, Shape d t order ∧ d.contents order = m ∧ RedBlack Color.isRed t ∧ (2 ≤ m.length → rootColor t = .black)

omit [Inhabited Value] in
theorem grown_empty : Grown (empty : Dictionary Key Value) [] := by
  have hempty : Represents (empty : Dictionary Key Value) [] := represents_empty
  obtain ⟨t, order, hS, hc⟩ := hempty
  have ht : t = .nil := by
    have hlen := hS.length_contents
    rw [← hc, List.length_nil] at hlen
    have hinorder : t.inorder = [] := List.eq_nil_of_length_eq_zero (hS.perm.length_eq.trans hlen.symm)
    cases t with
    | nil => rfl
    | node l a k r => simp at hinorder
  subst ht
  exact ⟨.nil, order, hS, hc.symm, redBlack_iff.mpr ⟨0, rfl⟩, by simp⟩

theorem Grown.add (hg : Grown d m) {key : Key} (value : Value)
    (hno : KeyedList.has Hasher.hash m (Hasher.hash key) = false) :
    ∃ d', d.add key value = some (.ok d') ∧ Grown d' (m ++ [(key, value)]) := by
  obtain ⟨t, order, hS, rfl, hrb, -⟩ := hg
  have hkey := hasKey_spec ⟨t, order, hS, rfl⟩ key
  rw [hno] at hkey
  let e : Entry Key Value := ⟨NULL, NULL, NULL, NULL, NULL, .red, key, value, Hasher.hash key⟩
  obtain ⟨d₁, d₂, go, hd₁, hd₂, hS', hc, -⟩ := hS.enterTree (e := e) hno rfl rfl rfl
  obtain ⟨hrb', hroot⟩ := redBlack_insertTree go d.brk hrb
  refine ⟨d₂, ?_, _, _, hS', hc, hrb', fun hlen => hroot ?_⟩
  · simp only [e] at hd₁
    simp [Dictionary.add, hkey, newEntry, store, hd₁, hd₂]
  · rintro rfl
    rw [List.length_append, List.length_singleton, hS.length_contents, ← hS.perm.length_eq, inorder_nil] at hlen
    exact absurd hlen (by decide)

theorem Grown.addAll {entries : List (Key × Value)} (hg : Grown d m)
    (hdistinct : (m ++ entries).Pairwise fun a b => Hasher.hash a.1 ≠ Hasher.hash b.1) :
    ∃ d', d.addAll entries = some (.ok d') ∧ Grown d' (m ++ entries) := by
  induction entries generalizing d m with
  | nil => exact ⟨d, rfl, by rwa [List.append_nil]⟩
  | cons p entries ih =>
    have hno : KeyedList.has Hasher.hash m (Hasher.hash p.1) = false :=
      KeyedList.not_has_iff.mpr fun q hq => (List.pairwise_append.mp hdistinct).2.2 q hq p List.mem_cons_self
    obtain ⟨d₁, hd₁, hg₁⟩ := hg.add p.2 hno
    obtain ⟨d', hd', hg'⟩ := ih hg₁ (by simpa using hdistinct)
    refine ⟨d', ?_, by simpa using hg'⟩
    rw [Dictionary.addAll, hd₁]
    exact hd'

/-- After every `add` of a sequence with distinct hashes the tree is red-black. -/
theorem addAll_redBlack {entries : List (Key × Value)}
    (hdistinct : entries.Pairwise fun a b => Hasher.hash a.1 ≠ Hasher.hash b.1) :
    ∀ done, done <+: entries → ∃ (d : Dictionary Key Value) (t : BinTree Color), empty.addAll done = some (.ok d) ∧
      Focus d [] t ∧ t.inorder.length = done.length ∧ d.Ordered t ∧ RedBlack Color.isRed t ∧
      (2 ≤ done.length → rootColor t = .black) ∧ (t.height : ℝ) ≤ 2 * Real.logb 2 (done.length + 1) := by
  intro done hdone
  obtain ⟨d, hd, t, order, hS, hc, hrb, hroot⟩ :=
    grown_empty.addAll (hdistinct.sublist hdone.sublist : ([] ++ done).Pairwise _)
  have hlen : t.inorder.length = done.length := by
    rw [hS.perm.length_eq, ← hS.length_contents, hc, List.nil_append]
  exact ⟨d, t, hd, hS.focus, hlen, hS.ordered, hrb, hroot, hlen ▸ hrb.height_le⟩

theorem addAll_redBlack_four : ∃ (d : Dictionary UInt32 Nat) (t : BinTree Color),
    empty.addAll [(1, 0), (2, 0), (3, 0), (4, 0)] = some (.ok d) ∧ t.height ≤ 2 * Real.logb 2 5 := by
  have hdistinct : [((1 : UInt32), 0), (2, 0), (3, 0), (4, 0)].Pairwise fun a b : UInt32 × Nat =>
      Hasher.hash a.1 ≠ Hasher.hash b.1 := by decide
  obtain ⟨d, t, hd, -, -, -, -, -, hheight⟩ := addAll_redBlack hdistinct _ (List.prefix_refl _)
  refine ⟨d, t, hd, hheight.trans_eq ?_⟩
  norm_num

end Insertion

theorem Stored.unique {h : Ptr → Option (Entry Key Value)} {t t' : BinTree Color} {p p' : Ptr} (hs : Stored h t p)
    (hs' : Stored h t' p') (hp : t.ptr = t'.ptr) : t = t' := by
  induction t generalizing t' p p' with
  | nil =>
    cases t' with
    | nil => rfl
    | node l a k r => exact absurd hp.symm hs'.1.1
  | node l a k r ihl ihr =>
    cases t' with
    | nil => exact absurd hp hs.1.1
    | node l' a' k' r' =>
      obtain rfl : a = a' := hp
      obtain ⟨⟨-, e, he, -, hk, hel, heg⟩, hl, hr⟩ := hs
      obtain ⟨⟨-, e', he', -, hk', hel', heg'⟩, hl', hr'⟩ := hs'
      cases Option.some.inj (he.symm.trans he')
      rw [ihl hl hl' (hel.symm.trans hel'), ihr hr hr' (heg.symm.trans heg'), ← hk, ← hk']

theorem Focus.unique {t' : BinTree Color} (hf : Focus d [] t) (hf' : Focus d [] t') : t = t' :=
  hf.sub.unique hf'.sub (hf.root.symm.trans hf'.root)

/-- The node that `_remove` takes out of the tree: the entry, or the successor that takes its place. -/
def spliced (d : Dictionary Key Value) (entry : Ptr) : Option Ptr := do
  let e ← d.heap entry
  if e.lesser = NULL ∨ e.greater = NULL then some entry else d.successor entry

/-- That node is red, or it has a child, or it is the root. -/
def Spares (d : Dictionary Key Value) (entry : Ptr) : Prop :=
  ∃ y e, d.spliced entry = some y ∧ d.heap y = some e ∧
    (e.color = .red ∨ e.lesser ≠ NULL ∨ e.greater ≠ NULL ∨ y = d.root)

/-- `_remove` of an entry comes down to the removal of a node that lacks a child. -/
theorem Focus.spliced_eq (hf : Focus d c (.node l a k r)) (hbrk : (plug c (.node l a k r)).inorder.length ≤ d.brk) :
    ∃ c₁ c₂ s y ky x, d.spliced a = some y ∧ plug c₁ (join s y ky x .nil) = plug c (.node l a k r) ∧
      removeAt c (.node l a k r) = dropNode ky c₂ x ∧ c₂.map Frame.shape = c₁.map Frame.shape := by
  obtain ⟨_, e, he, -, -, hel, heg⟩ := hf.sub.1
  have hel : e.lesser = l.ptr := hel
  have heg : e.greater = r.ptr := heg
  by_cases hl : l = .nil
  · subst hl
    refine ⟨c, c, .greater, a, k, r, ?_, rfl, rfl, rfl⟩
    simp [spliced, he, hel]
  · by_cases hr : r = .nil
    · subst hr
      refine ⟨c, c, .lesser, a, k, l, ?_, rfl, ?_, rfl⟩
      · simp [spliced, he, heg]
      · obtain ⟨b, kb, u, v, rfl⟩ := exists_join .lesser hl
        rfl
    · obtain ⟨m, km, z, up, hdown, hplug, -⟩ := exists_least hr
      refine ⟨up ++ ⟨.greater, a, k, l⟩ :: c, up ++ ⟨.greater, m, k, l⟩ :: c, .greater, m, km, z, ?_, ?_, ?_, ?_⟩
      · have hfl : Focus d (⟨.lesser, a, k, r⟩ :: c) l := focus_cons.mpr hf
        have hfr : Focus d (⟨.greater, a, k, l⟩ :: c) r := focus_cons.mpr hf
        simp [spliced, he, hel, heg, hfl.ptr_ne_null hl, hfr.ptr_ne_null hr, hf.successor_eq hr hdown hbrk]
      · rw [plug_append]
        show plug c (join .greater a k (plug up (.node .nil m km z)) l) = _
        rw [← hplug]
        rfl
      · obtain ⟨b, kb, u, v, rfl⟩ := exists_join .lesser hl
        cases r with
        | nil => exact absurd rfl hr
        | node u' b' kb' v' => simp [removeAt, join, hdown]
      · rw [List.map_append, List.map_append, List.map_cons, List.map_cons]
        rfl

theorem Focus.spares_iff (hf : Focus d c (join s y k x .nil)) (hs : d.spliced a = some y) :
    d.Spares a ↔ k = .red ∨ x ≠ .nil ∨ c = [] := by
  obtain ⟨-, e, he, -, hk, hx, hnil⟩ := hf.node
  have hsub : x ≠ .nil ↔ x.ptr ≠ NULL :=
    ⟨fun hne => (stored_join.mp hf.sub).2.1.ptr_ne_null hne, fun hp hn => hp (by rw [hn]; rfl)⟩
  have hchild : (e.lesser ≠ NULL ∨ e.greater ≠ NULL) ↔ x ≠ .nil := by
    have hnil : e.child s.flip = NULL := hnil
    rw [hsub, ← hx]
    cases s with
    | lesser =>
      have hg : e.greater = NULL := hnil
      simp [hg, Entry.child]
    | greater =>
      have hl : e.lesser = NULL := hnil
      simp [hl, Entry.child]
  have hroot : y = d.root ↔ c = [] := by
    cases c with
    | nil => simpa using hf.root.symm
    | cons f c =>
      have hne := hf.ne_root (join_ne_nil s y k x .nil)
      rw [ptr_join] at hne
      simp [hne]
  rw [← hchild, ← hroot, ← hk]
  constructor
  · rintro ⟨z, n, hz, hn, hcase⟩
    cases Option.some.inj (hs.symm.trans hz)
    cases Option.some.inj (he.symm.trans hn)
    rwa [or_assoc]
  · intro hcase
    rw [or_assoc] at hcase
    exact ⟨y, e, hs, he, hcase⟩

variable [Hasher Key]

/-- `remove` of a key that is there, and the tree that it leaves. -/
theorem Shape.remove_eq (hS : Shape d t order) {key : Key} (hkey : d.hasKey key = some true) :
    ∃ q d' c l k r order', d.find key = some q ∧ d.remove key = some (.ok d') ∧ t = plug c (.node l q k r) ∧
      Shape d' (removeAt c (.node l q k r)) order' := by
  obtain ⟨q, hq, hcase⟩ := hS.find key
  have hz : q ≠ NULL := by
    rw [hasKey, hq] at hkey
    simpa using hkey
  obtain ⟨-, hmem, -⟩ := hcase.resolve_left fun h => hz h.1
  obtain ⟨xs, ys, rfl⟩ := List.append_of_mem hmem
  obtain ⟨c, l, k, r, rfl⟩ := exists_plug (hS.perm.mem_iff.mpr hmem)
  obtain ⟨d', hd', hS', -⟩ := hS.dropAt
  exact ⟨q, d', c, l, k, r, _, hq, by simp [remove, hq, hz, hd'], rfl, hS'⟩

/-- The tree that a removal leaves is red-black if and only if the node taken out was spared a repair. -/
theorem Shape.balances_iff {d' : Dictionary Key Value} {order' : List Ptr}
    (hS : Shape d (plug c (.node l a k r)) order) (hb : Balances d (plug c (.node l a k r)))
    (hS' : Shape d' (removeAt c (.node l a k r)) order') :
    (∃ t', Balances d' t') ↔ d.Spares a := by
  have hf : Focus d c (.node l a k r) := focus_root.mpr hS.focus
  have hbrk : (plug c (.node l a k r)).inorder.length ≤ d.brk := by
    rw [hS.perm.length_eq]
    exact Nat.le_of_lt hS.length_lt
  obtain ⟨c₁, c₂, s, y, ky, x, hs, hplug, hdrop, hsame⟩ := hf.spliced_eq hbrk
  have hf₁ : Focus d c₁ (join s y ky x .nil) := focus_root.mpr (hplug ▸ hS.focus)
  have hx : x ≠ .nil → x.ptr ≠ NULL := fun hne => (stored_join.mp hf₁.sub).2.1.ptr_ne_null hne
  rw [hf₁.spares_iff hs, ← redBlack_dropNode hsame (hplug ▸ hb.redBlack) (hplug ▸ hb.root) hx, ← hdrop]
  constructor
  · rintro ⟨t', hb'⟩
    rw [hS'.focus.unique hb'.focus]
    exact ⟨hb'.redBlack, hb'.root⟩
  · intro h
    exact ⟨_, hS'.focus, hS'.ordered, h.2, h.1⟩

/-- `remove` leaves a red-black tree one if and only if the node that it takes out of the tree is red, has
a child or is the root. -/
theorem remove_balances (hS : Shape d t order) (hb : Balances d t) {key : Key} (hkey : d.hasKey key = some true) :
    ∃ q d', d.find key = some q ∧ d.remove key = some (.ok d') ∧ ((∃ t', Balances d' t') ↔ d.Spares q) := by
  obtain ⟨q, d', c, l, k, r, order', hq, hd', rfl, hS'⟩ := hS.remove_eq hkey
  exact ⟨q, d', hq, hd', hS.balances_iff hb hS'⟩

/-- Four entries with the hashes from 1 to 4, of which only the last is red. -/
theorem grown_four : ∃ (d : Dictionary UInt32 Nat) (t : BinTree Color) (order : List Ptr), Shape d t order ∧
    Balances d t ∧ d.hasKey 1 = some true ∧ d.hasKey 4 = some true ∧ d.find 1 = some 1 ∧ d.spliced 1 = some 1 ∧
      (d.heap 1).map Entry.node = some (2, 0, 0, .black) ∧ d.root = 2 := by
  have hdistinct : ([] ++ [((1 : UInt32), 0), (2, 0), (3, 0), (4, 0)]).Pairwise fun a b : UInt32 × Nat =>
      Hasher.hash a.1 ≠ Hasher.hash b.1 := by decide
  obtain ⟨d, hd, t, order, hS, -, hrb, hroot⟩ := grown_empty.addAll hdistinct
  have hrun : ∃ d : Dictionary UInt32 Nat, empty.addAll [(1, 0), (2, 0), (3, 0), (4, 0)] = some (.ok d) ∧
      d.hasKey 1 = some true ∧ d.hasKey 4 = some true ∧ d.find 1 = some 1 ∧ d.spliced 1 = some 1 ∧
      (d.heap 1).map Entry.node = some (2, 0, 0, .black) ∧ d.root = 2 :=
    ⟨_, rfl, rfl, rfl, rfl, rfl, rfl, rfl⟩
  obtain ⟨d', hd', hrest⟩ := hrun
  cases hd.symm.trans hd'
  exact ⟨d, t, order, hS, ⟨hS.focus, hS.ordered, hroot (by decide), hrb⟩, hrest⟩

theorem remove_balances_four : ∃ (d : Dictionary UInt32 Nat) (q : Ptr) (d' : Dictionary UInt32 Nat),
    d.find 4 = some q ∧ d.remove 4 = some (.ok d') ∧ ((∃ t', Balances d' t') ↔ d.Spares q) := by
  obtain ⟨d, t, order, hS, hb, -, hkey, -⟩ := grown_four
  exact ⟨d, remove_balances hS hb hkey⟩

/-- The first of the four entries is a black leaf, and its removal shortens the paths through it. -/
theorem remove_unbalances : ¬∀ (d : Dictionary UInt32 Nat) (t : BinTree Color) (order : List Ptr) (key : UInt32),
    Shape d t order → Balances d t → d.hasKey key = some true →
      ∃ d' t', d.remove key = some (.ok d') ∧ Balances d' t' := by
  intro h
  obtain ⟨d, t, order, hS, hb, hkey, -, hfind, hspliced, hnode, hroot⟩ := grown_four
  obtain ⟨d', t', hd', hb'⟩ := h d t order 1 hS hb hkey
  obtain ⟨q, d'', c, l, k, r, order', hq, hd'', rfl, hS'⟩ := hS.remove_eq hkey
  cases hd'.symm.trans hd''
  cases hfind.symm.trans hq
  obtain ⟨y, e, hy, he, hcase⟩ := (hS.balances_iff hb hS').mp ⟨t', hb'⟩
  cases hspliced.symm.trans hy
  rw [he, Option.map_some] at hnode
  simp only [Entry.node, Option.some.injEq, Prod.mk.injEq] at hnode
  rw [hnode.2.1, hnode.2.2.1, hnode.2.2.2, hroot] at hcase
  revert hcase
  decide

end Dictionary

end Srl
