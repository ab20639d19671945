import Srl.DictionaryRemoveEntry

namespace Srl

open SearchTree

variable {Key Value : Type} {d : Dictionary Key Value} {c : List (Frame Color)} {t : BinTree Color}

/-- What the tree operations write. -/
def Entry.node (e : Entry Key Value) : Ptr × Ptr × Ptr × Color :=
  (e.parent, e.lesser, e.greater, e.color)

def Entry.links (e : Entry Key Value) : Ptr × Ptr := (e.prev, e.next)

def Entry.payload (e : Entry Key Value) : Key × Value × Int := (e.key, e.value, e.hash)

namespace Dictionary

theorem NodeAt.congr {h h' : Ptr → Option (Entry Key Value)} {a p : Ptr} {k : Color} {s : Side}
    {x y : Ptr} (hn : NodeAt h a p k s x y) (same : (h' a).map Entry.node = (h a).map Entry.node) :
    NodeAt h' a p k s x y := by
  obtain ⟨hz, e, he, hp, hk, hx, hy⟩ := hn
  rw [he, Option.map_some, Option.map_eq_some_iff] at same
  obtain ⟨e', he', hnode⟩ := same
  simp only [Entry.node, Prod.mk.injEq] at hnode
  obtain ⟨h1, h2, h3, h4⟩ := hnode
  refine ⟨hz, e', he', h1.trans hp, h4.trans hk, ?_, ?_⟩
  · cases s <;> simp_all [Entry.child]
  · cases s <;> simp_all [Entry.child, Side.flip]

theorem Stored.congr_node {h h' : Ptr → Option (Entry Key Value)} {p : Ptr} (hs : Stored h t p)
    (same : ∀ a ∈ t.inorder, (h' a).map Entry.node = (h a).map Entry.node) : Stored h' t p := by
  induction t generalizing p with
  | nil => trivial
  | node l a k r ihl ihr =>
    obtain ⟨hn, hl, hr⟩ := hs
    exact ⟨hn.congr (same a (by simp)), ihl hl fun b hb => same b (by simp [hb]),
      ihr hr fun b hb => same b (by simp [hb])⟩

/-- The tree does not see writes to other fields or to entries outside of it. -/
theorem Focus.congr {d' : Dictionary Key Value} (hf : Focus d [] t) (hr : d'.root = d.root)
    (same : ∀ a ∈ t.inorder, (d'.heap a).map Entry.node = (d.heap a).map Entry.node) :
    Focus d' [] t :=
  ⟨trivial, hf.sub.congr_node same, hr.trans hf.root, hf.nodup⟩

/-- The hash of the entry at `a` is below the one at `b`. -/
def Precedes (d : Dictionary Key Value) (a b : Ptr) : Prop :=
  ∀ e n, d.heap a = some e → d.heap b = some n → e.hash < n.hash

/-- The nodes of a tree are in the order of their hashes. -/
def Ordered (d : Dictionary Key Value) (t : BinTree Color) : Prop := t.inorder.Pairwise d.Precedes

theorem payload_eq_some {h h' : Ptr → Option (Entry Key Value)} {a : Ptr} {e : Entry Key Value}
    (same : (h' a).map Entry.payload = (h a).map Entry.payload) (he : h' a = some e) :
    ∃ n, h a = some n ∧ n.key = e.key ∧ n.value = e.value ∧ n.hash = e.hash := by
  rw [he, Option.map_some, eq_comm, Option.map_eq_some_iff] at same
  obtain ⟨n, hn, hp⟩ := same
  simp only [Entry.payload, Prod.mk.injEq] at hp
  exact ⟨n, hn, hp⟩

theorem Precedes.congr {d' : Dictionary Key Value} {a b : Ptr} (hp : d.Precedes a b)
    (ha : (d'.heap a).map Entry.payload = (d.heap a).map Entry.payload)
    (hb : (d'.heap b).map Entry.payload = (d.heap b).map Entry.payload) : d'.Precedes a b := by
  intro e n he hn
  obtain ⟨e', he', _, _, hh⟩ := payload_eq_some ha he
  obtain ⟨n', hn', _, _, hh'⟩ := payload_eq_some hb hn
  have := hp e' n' he' hn'
  omega

/-- Equal hashes are only met at one node. -/
theorem Ordered.unique {a b : Ptr} {e n : Entry Key Value} (ho : d.Ordered t) (ha : a ∈ t.inorder)
    (hb : b ∈ t.inorder) (he : d.heap a = some e) (hn : d.heap b = some n) (hh : e.hash = n.hash) :
    a = b := by
  have hrel := List.Pairwise.forall_of_forall_of_flip (l := t.inorder)
    (R := fun a b => ∀ e n, d.heap a = some e → d.heap b = some n → e.hash = n.hash → a = b)
    (fun _ _ _ _ _ _ _ => rfl)
    (ho.imp fun h e n he hn heq => absurd (h e n he hn) (by omega))
    (ho.imp fun h e n he hn heq => absurd (h n e hn he) (by omega))
  exact hrel ha hb e n he hn hh

/-- `_find` stops at the entry with the hash, or runs off the tree when there is none. -/
theorem findLoop_spec {p : Ptr} {h : Int} {fuel : Nat} (hs : Stored d.heap t p) (ho : d.Ordered t)
    (hfuel : t.inorder.length < fuel) :
    ∃ q, d.findLoop h fuel t.ptr = some q ∧
      ((q = NULL ∧ ∀ a ∈ t.inorder, ∀ e, d.heap a = some e → e.hash ≠ h) ∨
        (q ≠ NULL ∧ q ∈ t.inorder ∧ ∃ e, d.heap q = some e ∧ e.hash = h)) := by
  induction t generalizing p fuel with
  | nil =>
    obtain ⟨fuel, rfl⟩ := Nat.exists_eq_add_of_lt hfuel
    exact ⟨NULL, by simp [findLoop], Or.inl (by simp)⟩
  | node l a k r ihl ihr =>
    obtain ⟨fuel, rfl⟩ := Nat.exists_eq_add_of_lt hfuel
    obtain ⟨⟨hz, e, he, _, _, hl, hr⟩, hsl, hsr⟩ := hs
    have hl : e.lesser = l.ptr := hl
    have hr : e.greater = r.ptr := hr
    simp only [Ordered, inorder_node, List.pairwise_append, List.pairwise_cons, List.mem_cons,
      forall_eq_or_imp] at ho
    obtain ⟨ol, ⟨oar, or'⟩, olr⟩ := ho
    by_cases heq : h = e.hash
    · refine ⟨a, by simp [findLoop, hz, he, heq], Or.inr ⟨hz, by simp, e, he, heq.symm⟩⟩
    · by_cases hgt : h > e.hash
      · obtain ⟨q, hq, hcase⟩ := ihr hsr or'
          (show _ < l.inorder.length + r.inorder.length + 1 + fuel by omega)
        refine ⟨q, ?_, ?_⟩
        · simpa [findLoop, hz, he, heq, hgt, hr, Nat.add_assoc] using hq
        · rcases hcase with ⟨hqz, hno⟩ | ⟨hqz, hm, hfound⟩
          · refine Or.inl ⟨hqz, fun b hb n hn => ?_⟩
            simp only [inorder_node, List.mem_append, List.mem_cons] at hb
            rcases hb with hb | rfl | hb
            · have := (olr b hb).1 n e hn he; omega
            · cases Option.some.inj (he.symm.trans hn); omega
            · exact hno b hb n hn
          · exact Or.inr ⟨hqz, by simp [hm], hfound⟩
      · obtain ⟨q, hq, hcase⟩ := ihl hsl ol
          (show _ < l.inorder.length + r.inorder.length + 1 + fuel by omega)
        refine ⟨q, ?_, ?_⟩
        · simpa [findLoop, hz, he, heq, hgt, hl, Nat.add_assoc] using hq
        · rcases hcase with ⟨hqz, hno⟩ | ⟨hqz, hm, hfound⟩
          · refine Or.inl ⟨hqz, fun b hb n hn => ?_⟩
            simp only [inorder_node, List.mem_append, List.mem_cons] at hb
            rcases hb with hb | rfl | hb
            · exact hno b hb n hn
            · cases Option.some.inj (he.symm.trans hn); omega
            · have := oar b hb e n he hn; omega
          · exact Or.inr ⟨hqz, by simp [hm], hfound⟩

/-- An entry goes in between those with smaller hashes and those with greater ones. -/
theorem precedes_insert {a : Ptr} {e : Entry Key Value} {xs ys : List Ptr} (h : (xs ++ ys).Pairwise d.Precedes)
    (he : d.heap a = some e) (hlt : ∀ b ∈ xs, ∀ n, d.heap b = some n → n.hash < e.hash)
    (hgt : ∀ b ∈ ys, ∀ n, d.heap b = some n → e.hash < n.hash) : (xs ++ a :: ys).Pairwise d.Precedes := by
  obtain ⟨hx, hy, hcross⟩ := List.pairwise_append.mp h
  refine List.pairwise_append.mpr ⟨hx, List.pairwise_cons.mpr ⟨fun b hb n m hn hm => ?_, hy⟩, fun b hb c hc => ?_⟩
  · cases Option.some.inj (he.symm.trans hn)
    exact hgt b hb m hm
  · rcases List.mem_cons.mp hc with rfl | hc
    · intro n m hn hm
      cases Option.some.inj (he.symm.trans hm)
      exact hlt b hb n hn
    · exact hcross b hb c hc

/-- A new entry goes where its hash belongs. -/
theorem inorder_insertTree {h : Int} (entry : Ptr) (hs : Stored d.heap t NULL) (ho : d.Ordered t)
    (hne : ∀ a ∈ t.inorder, ∀ e, d.heap a = some e → e.hash ≠ h) :
    ∃ xs ys, t.inorder = xs ++ ys ∧ (insertTree (d.turn h) t entry).inorder = xs ++ entry :: ys ∧
      (∀ a ∈ xs, ∀ e, d.heap a = some e → e.hash < h) ∧
      (∀ a ∈ ys, ∀ e, d.heap a = some e → h < e.hash) := by
  have mono : t.inorder.Pairwise fun a b => d.turn h b = .greater → d.turn h a = .greater := by
    refine ho.imp_of_mem fun {a b} ha hb hab hturn => ?_
    obtain ⟨e, he⟩ := (hs.live ha).2
    obtain ⟨n, hn⟩ := (hs.live hb).2
    have := hab e n he hn
    simp only [turn, he, hn] at hturn ⊢
    split at hturn
    next hge => exact if_pos (by omega)
    next => simp at hturn
  obtain ⟨xs, ys, hxy, hx, hy, hb, ha⟩ := descend_split [] mono
  refine ⟨xs, ys, hxy, ?_, fun a ha e he => ?_, fun a ha e he => ?_⟩
  · cases t with
    | nil =>
      obtain ⟨rfl, rfl⟩ : xs = [] ∧ ys = [] := by simpa using hxy
      rfl
    | node l a k r => simp [insertTree, inorder_fixInsert, inorder_plug, hb, ha]
  · have hturn := hx a ha
    have := hne a (by simp [hxy, ha]) e he
    simp only [turn, he] at hturn
    split at hturn
    next hge => omega
    next => simp at hturn
  · have hturn := hy a ha
    simp only [turn, he] at hturn
    split at hturn
    next => simp at hturn
    next hlt => omega

end Dictionary

end Srl
