import Srl.DictionaryLinks
import Srl.DictionaryOps
import Srl.KeyedList
import Mathlib.Data.List.Perm.Subperm

namespace Srl

open SearchTree LinkedList

variable {Key Value : Type} {d : Dictionary Key Value} {t : BinTree Color} {order : List Ptr}

namespace Dictionary

/-- Keys and values of the entries at the given addresses. -/
def contents (d : Dictionary Key Value) (order : List Ptr) : List (Key × Value) :=
  order.filterMap fun a => (d.heap a).map fun e => (e.key, e.value)

/-- What holds between any two operations: the live entries are the nodes of the search
tree `t` and the members of the list `order`. -/
structure Shape [Hasher Key] (d : Dictionary Key Value) (t : BinTree Color) (order : List Ptr) :
    Prop where
  focus : Focus d [] t
  ordered : d.Ordered t
  perm : t.inorder.Perm order
  linked : d.Linked order
  live : ∀ a, (d.heap a).isSome → a ∈ order
  bound : ∀ a ∈ order, a < d.brk
  brk : 0 < d.brk
  size : d.size = UInt32.ofNat order.length
  hashed : ∀ a e, d.heap a = some e → e.hash = Hasher.hash e.key

/-- The dictionary holds the bindings `m`, in the order of their insertion. -/
def Represents [Hasher Key] (d : Dictionary Key Value) (m : List (Key × Value)) : Prop :=
  ∃ t order, Shape d t order ∧ m = d.contents order

@[simp] theorem contents_nil : d.contents [] = [] := rfl

theorem contents_append (xs ys : List Ptr) :
    d.contents (xs ++ ys) = d.contents xs ++ d.contents ys := List.filterMap_append ..

theorem contents_cons {a : Ptr} {e : Entry Key Value} (he : d.heap a = some e) (xs : List Ptr) :
    d.contents (a :: xs) = (e.key, e.value) :: d.contents xs := by simp [contents, he]

theorem contents_congr {d' : Dictionary Key Value} {xs : List Ptr}
    (same : ∀ a ∈ xs, (d'.heap a).map Entry.payload = (d.heap a).map Entry.payload) :
    d'.contents xs = d.contents xs := by
  refine List.filterMap_congr fun a ha => ?_
  have := congrArg (Option.map fun x : Key × Value × Int => (x.1, x.2.1)) (same a ha)
  rw [Option.map_map, Option.map_map] at this
  exact this

theorem mem_contents {p : Key × Value} {xs : List Ptr} :
    p ∈ d.contents xs ↔ ∃ a ∈ xs, ∃ e, d.heap a = some e ∧ (e.key, e.value) = p := by
  simp [contents, List.mem_filterMap]

theorem Ordered.congr {d' : Dictionary Key Value} (ho : d.Ordered t)
    (same : ∀ a ∈ t.inorder, (d'.heap a).map Entry.payload = (d.heap a).map Entry.payload) :
    d'.Ordered t :=
  ho.imp_of_mem fun ha hb h => h.congr (same _ ha) (same _ hb)

section Hashed

variable [Hasher Key]

theorem Shape.nodup (hS : Shape d t order) : order.Nodup := hS.linked.nodup

theorem Shape.entry {a : Ptr} (hS : Shape d t order) (ha : a ∈ order) : ∃ e, d.heap a = some e :=
  (hS.focus.sub.live (hS.perm.mem_iff.mpr ha)).2

theorem Shape.unique {a b : Ptr} {e n : Entry Key Value} (hS : Shape d t order)
    (he : d.heap a = some e) (hn : d.heap b = some n) (hh : e.hash = n.hash) : a = b :=
  hS.ordered.unique (hS.perm.mem_iff.mpr (hS.live a (by simp [he])))
    (hS.perm.mem_iff.mpr (hS.live b (by simp [hn]))) he hn hh

theorem Shape.length_lt (hS : Shape d t order) : order.length < d.brk := by
  have hsub : order ⊆ List.range' 1 (d.brk - 1) := fun a ha =>
    List.mem_range'_1.mpr ⟨Nat.pos_of_ne_zero (hS.linked.live a ha), by
      rw [Nat.add_sub_cancel' hS.brk]
      exact hS.bound a ha⟩
  have hle := (List.subperm_of_subset hS.nodup hsub).length_le
  rw [List.length_range'] at hle
  exact Nat.lt_of_le_sub_one hS.brk hle

/-- The hash of a key leads to its entry, or to `NULL` when no entry has the hash. -/
theorem Shape.find (hS : Shape d t order) (key : Key) :
    ∃ q, d.findEntry key = some q ∧
      ((q = NULL ∧ KeyedList.has Hasher.hash (d.contents order) (Hasher.hash key) = false) ∨
        (q ≠ NULL ∧ q ∈ order ∧ ∃ e, d.heap q = some e ∧ e.hash = Hasher.hash key)) := by
  have hlen : t.inorder.length < d.brk := hS.perm.length_eq ▸ hS.length_lt
  obtain ⟨q, hq, hcase⟩ := findLoop_spec (h := Hasher.hash key) hS.focus.sub hS.ordered hlen
  have hroot : d.root = t.ptr := hS.focus.root
  refine ⟨q, by rw [findEntry, hroot, hq], ?_⟩
  rcases hcase with ⟨hz, hno⟩ | ⟨hz, hm, hfound⟩
  · refine Or.inl ⟨hz, KeyedList.not_has_iff.mpr fun p hp => ?_⟩
    obtain ⟨a, ha, e, he, rfl⟩ := mem_contents.mp hp
    rw [← hS.hashed a e he]
    exact hno a (hS.perm.mem_iff.mpr ha) e he
  · exact Or.inr ⟨hz, hS.perm.mem_iff.mp hm, hfound⟩

/-- An entry with the hash of a key shows in the contents. -/
theorem Shape.has {q : Ptr} {e : Entry Key Value} (hS : Shape d t order) (he : d.heap q = some e) :
    KeyedList.has Hasher.hash (d.contents order) e.hash = true :=
  KeyedList.has_iff.mpr ⟨(e.key, e.value),
    mem_contents.mpr ⟨q, hS.live q (by simp [he]), e, he, rfl⟩, (hS.hashed q e he).symm⟩

theorem Shape.distinct (hS : Shape d t order) : KeyedList.Distinct Hasher.hash (d.contents order) := by
  refine List.pairwise_filterMap.mpr (hS.nodup.imp fun {a b} hab x hx y hy hh => hab ?_)
  obtain ⟨e, he, rfl⟩ := Option.map_eq_some_iff.mp hx
  obtain ⟨n, hn, rfl⟩ := Option.map_eq_some_iff.mp hy
  exact hS.unique he hn (by rw [hS.hashed a e he, hS.hashed b n hn]; exact hh)

theorem Shape.fresh (hS : Shape d t order) : d.brk ∉ order := fun h =>
  Nat.lt_irrefl _ (hS.bound _ h)

/-- `_link` and `_insert` of a new entry whose hash is not there yet, with the tree that they leave. -/
theorem Shape.enterTree {e : Entry Key Value} (hS : Shape d t order)
    (hno : KeyedList.has Hasher.hash (d.contents order) e.hash = false)
    (hlinks : e.links = (NULL, NULL)) (hnode : e.node = (NULL, NULL, NULL, .red))
    (hh : e.hash = Hasher.hash e.key) :
    ∃ d₁ d₂ go,
      link { d with heap := Function.update d.heap d.brk (some e), brk := d.brk + 1 } d.brk = some d₁ ∧
      d₁.insertEntry d.brk = some d₂ ∧ Shape d₂ (insertTree go t d.brk) (order ++ [d.brk]) ∧
      d₂.contents (order ++ [d.brk]) = d.contents order ++ [(e.key, e.value)] ∧
      ∃ n, d₂.heap d.brk = some n ∧ n.key = e.key ∧ n.value = e.value := by
  generalize hd₀ : ({ d with heap := Function.update d.heap d.brk (some e), brk := d.brk + 1 } :
    Dictionary Key Value) = d₀
  have hfresh := hS.fresh
  have hbrk : d.brk ≠ NULL := Nat.pos_iff_ne_zero.mp hS.brk
  have hmem : ∀ {a}, a ∈ t.inorder ↔ a ∈ order := hS.perm.mem_iff
  have hself : d₀.heap d.brk = some e := by simp [← hd₀]
  have hother : ∀ a, a ≠ d.brk → d₀.heap a = d.heap a := fun a ha => by
    simp [← hd₀, Function.update_of_ne ha]
  have hold : ∀ a ∈ order, d₀.heap a = d.heap a := fun a ha =>
    hother a (by rintro rfl; exact hfresh ha)
  simp only [Entry.links, Entry.node, Prod.mk.injEq] at hlinks hnode
  have hl₀ : d₀.Linked order := hS.linked.congr (fun a ha => by simp [links, hold a ha])
    (by simp [← hd₀]) (by simp [← hd₀])
  obtain ⟨d₁, hd₁, hs₁, hl₁, hsz₁⟩ := link_spec hl₀ hself hbrk hfresh hlinks.1 hlinks.2
  have hf₁ : Focus d₁ [] t := hS.focus.congr (by simp [hs₁.root, ← hd₀]) fun a ha => by
    rw [hs₁.node, hold a (hmem.mp ha)]
  have hpay₁ : ∀ a ∈ order, (d₁.heap a).map Entry.payload = (d.heap a).map Entry.payload :=
    fun a ha => by rw [hs₁.payload, hold a ha]
  have ho₁ : d₁.Ordered t := hS.ordered.congr fun a ha => hpay₁ a (hmem.mp ha)
  obtain ⟨e₁, he₁, hn₁⟩ := Option.map_eq_some_iff.mp ((hs₁.node d.brk).trans (by rw [hself]; rfl))
  obtain ⟨e₁', he₁', hk₁, hv₁, hh₁⟩ := payload_eq_some (hs₁.payload d.brk).symm hself
  cases Option.some.inj (he₁.symm.trans he₁')
  simp only [Entry.node, Prod.mk.injEq] at hn₁
  obtain ⟨d₂, hd₂, hs₂, hf₂⟩ := insertEntry_spec hf₁ he₁ hbrk (fun h => hfresh (hmem.mp h))
    (by rw [hn₁.2.1, hnode.2.1]) (by rw [hn₁.2.2.1, hnode.2.2.1]) (by rw [hn₁.1, hnode.1])
    (by rw [hn₁.2.2.2, hnode.2.2.2]) (by
      have := hS.length_lt
      rw [hs₁.brk, hS.perm.length_eq, ← hd₀]
      exact Nat.lt_succ_of_lt this)
  have hpay₂ : ∀ a ∈ order, (d₂.heap a).map Entry.payload = (d.heap a).map Entry.payload :=
    fun a ha => (hs₂.payload a).trans (hpay₁ a ha)
  obtain ⟨e₂, he₂, hk₂, hv₂, hh₂⟩ := payload_eq_some (hs₂.payload d.brk).symm he₁
  have hne : ∀ a ∈ t.inorder, ∀ n, d₁.heap a = some n → n.hash ≠ e₁.hash := by
    intro a ha n hn hh'
    obtain ⟨n', hn', hk', _, hh''⟩ := payload_eq_some (hpay₁ a (hmem.mp ha)) hn
    have := hS.has hn'
    rw [hh'', hh', hh₁, hno] at this
    exact Bool.false_ne_true this
  obtain ⟨xs, ys, hxy, hins, hlt, hgt⟩ := inorder_insertTree d.brk hf₁.sub ho₁ hne
  refine ⟨d₁, d₂, _, hd₁, hd₂, ⟨hf₂, ?_, ?_, hl₁.congr (fun a _ => hs₂.links a) hs₂.first hs₂.last, ?_,
    ?_, ?_, ?_, ?_⟩, ?_, e₂, he₂, hk₂.trans hk₁, hv₂.trans hv₁⟩
  · have hins₁ : (xs ++ d.brk :: ys).Pairwise d₁.Precedes := precedes_insert (hxy ▸ ho₁) he₁ hlt hgt
    rw [Ordered, hins]
    exact hins₁.imp fun h => h.congr (hs₂.payload _) (hs₂.payload _)
  · rw [hins]
    refine List.perm_middle.trans ?_
    rw [← hxy]
    exact (hS.perm.cons d.brk).trans (List.perm_append_singleton ..).symm
  · intro a ha
    by_cases hab : a = d.brk
    · simp [hab]
    · have hsome : ((d₂.heap a).map Entry.payload).isSome := by simpa using ha
      rw [hs₂.payload, hs₁.payload, hother a hab, Option.isSome_map] at hsome
      simp [hS.live a hsome]
  · intro a ha
    rw [hs₂.brk, hs₁.brk, ← hd₀]
    rcases List.mem_append.mp ha with ha | ha
    · exact Nat.lt_succ_of_lt (hS.bound a ha)
    · rw [List.mem_singleton.mp ha]
      exact Nat.lt_succ_self _
  · rw [hs₂.brk, hs₁.brk, ← hd₀]
    exact Nat.succ_pos _
  · rw [hs₂.size, hsz₁, ← hd₀, List.length_append, List.length_singleton, UInt32.ofNat_add]
    exact congrArg (· + 1) hS.size
  · intro a n hn
    by_cases hab : a = d.brk
    · subst hab
      cases Option.some.inj (he₂.symm.trans hn)
      rw [hh₂, hh₁, hh, hk₂, hk₁]
    · obtain ⟨n', hn', hk', _, hh'⟩ := payload_eq_some ((hs₂.payload a).trans (hs₁.payload a)) hn
      rw [hother a hab] at hn'
      rw [← hh', ← hk']
      exact hS.hashed a n' hn'
  · rw [contents_append, contents_congr hpay₂, contents_cons he₂, contents_nil, hk₂, hk₁, hv₂, hv₁]

theorem Shape.enter {e : Entry Key Value} (hS : Shape d t order)
    (hno : KeyedList.has Hasher.hash (d.contents order) e.hash = false)
    (hlinks : e.links = (NULL, NULL)) (hnode : e.node = (NULL, NULL, NULL, .red))
    (hh : e.hash = Hasher.hash e.key) :
    ∃ d₁ d₂ t',
      link { d with heap := Function.update d.heap d.brk (some e), brk := d.brk + 1 } d.brk = some d₁ ∧
      d₁.insertEntry d.brk = some d₂ ∧ Shape d₂ t' (order ++ [d.brk]) ∧
      d₂.contents (order ++ [d.brk]) = d.contents order ++ [(e.key, e.value)] ∧
      ∃ n, d₂.heap d.brk = some n ∧ n.key = e.key ∧ n.value = e.value := by
  obtain ⟨d₁, d₂, go, h⟩ := hS.enterTree hno hlinks hnode hh
  exact ⟨d₁, d₂, _, h⟩

end Hashed

end Dictionary

end Srl
