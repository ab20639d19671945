import Srl.DictionaryInvariant

namespace Srl

open SearchTree LinkedList

variable {Key Value : Type} [Hasher Key] {d : Dictionary Key Value} {t : BinTree Color} {order : List Ptr}
  {m : List (Key × Value)}

namespace Dictionary

/-- Writing a value leaves everything but the contents alone. -/
theorem Shape.storeValue {q : Ptr} {e : Entry Key Value} (hS : Shape d t order)
    (he : d.heap q = some e) (v : Value) :
    ∃ d', d.store q (fun e => { e with value := v }) = some d' ∧ Shape d' t order ∧
      d'.contents order = (d.contents order).map fun p =>
        if Hasher.hash p.1 = e.hash then (p.1, v) else p := by
  refine ⟨_, store_eq _ he, ?_⟩
  generalize hd' : ({ d with heap := Function.update d.heap q (some { e with value := v }) } :
    Dictionary Key Value) = d'
  have hself : d'.heap q = some { e with value := v } := by simp [← hd']
  have hother : ∀ a, a ≠ q → d'.heap a = d.heap a := fun a ha => by
    simp [← hd', Function.update_of_ne ha]
  have hentry : ∀ a n, d'.heap a = some n → ∃ n', d.heap a = some n' ∧ n.key = n'.key ∧ n.hash = n'.hash := by
    intro a n hn
    by_cases hab : a = q
    · subst hab
      cases Option.some.inj (hself.symm.trans hn)
      exact ⟨e, he, rfl, rfl⟩
    · exact ⟨n, by rw [← hother a hab, hn], rfl, rfl⟩
  refine ⟨⟨hS.focus.congr (by simp [← hd']) fun a _ => ?_, ?_, hS.perm,
    hS.linked.congr (fun a _ => ?_) (by simp [← hd']) (by simp [← hd']), ?_, by simpa [← hd'] using hS.bound,
    by simpa [← hd'] using hS.brk, by simpa [← hd'] using hS.size, ?_⟩, ?_⟩
  · by_cases hab : a = q
    · subst hab; rw [hself, he]; rfl
    · rw [hother a hab]
  · refine hS.ordered.imp fun {a b} hab n n' hn hn' => ?_
    obtain ⟨x, hx, _, hxh⟩ := hentry a n hn
    obtain ⟨y, hy, _, hyh⟩ := hentry b n' hn'
    rw [hxh, hyh]
    exact hab x y hx hy
  · by_cases hab : a = q
    · subst hab; rw [links, links, hself, he]; rfl
    · rw [links, links, hother a hab]
  · intro a ha
    obtain ⟨n, hn⟩ := Option.isSome_iff_exists.mp ha
    obtain ⟨n', hn', _⟩ := hentry a n hn
    exact hS.live a (by simp [hn'])
  · intro a n hn
    obtain ⟨n', hn', hk, hh⟩ := hentry a n hn
    rw [hk, hh]
    exact hS.hashed a n' hn'
  · rw [contents, contents, List.map_filterMap]
    refine List.filterMap_congr fun a ha => ?_
    obtain ⟨n, hn⟩ := hS.entry ha
    by_cases hab : a = q
    · subst hab
      cases Option.some.inj (he.symm.trans hn)
      simp [hself, he, hS.hashed a e he]
    · have hne : Hasher.hash n.key ≠ e.hash := by
        rw [← hS.hashed a n hn]
        exact fun hh => hab (hS.unique hn he hh)
      simp [hother a hab, hn, hne]

/-- `_unlink`, `_remove` and `delete` of an entry leave the other ones in their order. -/
theorem Shape.dropAt {q : Ptr} {xs ys : List Ptr} {c : List (Frame Color)} {l r : BinTree Color} {k : Color}
    (hS : Shape d (plug c (.node l q k r)) (xs ++ q :: ys)) :
    ∃ d', d.drop q = some d' ∧ Shape d' (removeAt c (.node l q k r)) (xs ++ ys) ∧
      ∀ a ∈ xs ++ ys, (d'.heap a).map Entry.payload = (d.heap a).map Entry.payload := by
  have hq : q ∈ xs ++ q :: ys := by simp
  obtain ⟨e, he⟩ := hS.entry hq
  have hnodup := hS.nodup
  have hqx : q ∉ xs ++ ys := by
    have := List.nodup_middle.mp hnodup
    exact (List.nodup_cons.mp this).1
  obtain ⟨d₁, hd₁, hs₁, hl₁, hsz₁⟩ := unlink_spec hS.linked
  have hf₁ : Focus d₁ [] (plug c (.node l q k r)) := hS.focus.congr hs₁.root fun a _ => hs₁.node a
  have hlen : (plug c (.node l q k r)).inorder.length ≤ d₁.brk := by
    rw [hs₁.brk, hS.perm.length_eq]
    exact Nat.le_of_lt hS.length_lt
  obtain ⟨d₂, hd₂, hs₂, hf₂⟩ := removeEntry_spec (focus_root.mpr hf₁) hlen
  have hpay₂ : ∀ a, (d₂.heap a).map Entry.payload = (d.heap a).map Entry.payload := fun a =>
    (hs₂.payload a).trans (hs₁.payload a)
  obtain ⟨e₂, he₂, -⟩ := payload_eq_some (hpay₂ q).symm he
  let d₃ : Dictionary Key Value := { d₂ with heap := Function.update d₂.heap q none }
  have hd₃ : d₂.delete q = some d₃ := by simp [delete, he₂, d₃]
  have hother : ∀ a, a ≠ q → d₃.heap a = d₂.heap a := fun a ha => by simp [d₃, Function.update_of_ne ha]
  have hself : d₃.heap q = none := by simp [d₃]
  have hold : (plug c (.node l q k r)).inorder = before c ++ l.inorder ++ q :: (r.inorder ++ after c) := by
    simp [inorder_plug]
  have hnew : (removeAt c (.node l q k r)).inorder = before c ++ l.inorder ++ (r.inorder ++ after c) := by
    simp [inorder_removeAt]
  have hqt : q ∉ (removeAt c (.node l q k r)).inorder := by
    have := hS.focus.nodup
    rw [plug_nil, hold, List.nodup_middle] at this
    rw [hnew]
    exact (List.nodup_cons.mp this).1
  have hne : ∀ {a} {zs : List Ptr}, a ∈ zs → q ∉ zs → a ≠ q := by
    rintro a zs ha hqz rfl
    exact hqz ha
  refine ⟨d₃, by simp [Dictionary.drop, hd₁, hd₂, hd₃],
    ⟨hf₂.congr rfl fun a ha => by rw [hother a (hne ha hqt)], ?_, ?_,
    hl₁.congr (fun a ha => ?_) hs₂.first hs₂.last, ?_, ?_, ?_, ?_, ?_⟩, fun a ha => by
      rw [hother a (hne ha hqx), hpay₂]⟩
  · have hsub : (removeAt c (.node l q k r)).inorder.Sublist (plug c (.node l q k r)).inorder := by
      rw [hnew, hold]
      exact (List.Sublist.refl _).append (List.sublist_cons_self ..)
    refine (hS.ordered.sublist hsub).imp_of_mem fun {a b} ha hb h => h.congr ?_ ?_
    · rw [hother a (hne ha hqt), hpay₂]
    · rw [hother b (hne hb hqt), hpay₂]
  · have := hS.perm
    rw [hold] at this
    rw [hnew]
    exact List.Perm.cons_inv ((List.perm_middle.symm.trans this).trans List.perm_middle)
  · rw [links, hother a (hne ha hqx)]
    exact hs₂.links a
  · intro a ha
    have hab : a ≠ q := by rintro rfl; simp [hself] at ha
    have hsome : ((d₂.heap a).map Entry.payload).isSome := by simpa [hother a hab] using ha
    rw [hpay₂, Option.isSome_map] at hsome
    have := hS.live a hsome
    simp only [List.mem_append, List.mem_cons] at this ⊢
    tauto
  · intro a ha
    rw [show d₃.brk = d.brk from hs₂.brk.trans hs₁.brk]
    exact hS.bound a (by simp only [List.mem_append, List.mem_cons] at ha ⊢; tauto)
  · rw [show d₃.brk = d.brk from hs₂.brk.trans hs₁.brk]
    exact hS.brk
  · have hlen' : (xs ++ q :: ys).length = (xs ++ ys).length + 1 := by simp; omega
    rw [show d₃.size = d₂.size from rfl, hs₂.size, hsz₁, hS.size, hlen', UInt32.ofNat_add,
      UInt32.ofNat_one, UInt32.add_sub_cancel]
  · intro a n hn
    have hab : a ≠ q := by rintro rfl; simp [hself] at hn
    rw [hother a hab] at hn
    obtain ⟨n', hn', hk', _, hh'⟩ := payload_eq_some (hpay₂ a) hn
    rw [← hh', ← hk']
    exact hS.hashed a n' hn'

theorem Shape.dropMiddle {q : Ptr} {xs ys : List Ptr} (hS : Shape d t (xs ++ q :: ys)) :
    ∃ d' t', d.drop q = some d' ∧ Shape d' t' (xs ++ ys) ∧
      ∀ a ∈ xs ++ ys, (d'.heap a).map Entry.payload = (d.heap a).map Entry.payload := by
  obtain ⟨c, l, k, r, rfl⟩ := exists_plug (hS.perm.mem_iff.mpr (by simp : q ∈ xs ++ q :: ys))
  obtain ⟨d', h⟩ := hS.dropAt
  exact ⟨d', _, h⟩

/-- `_unlink`, `_remove` and `delete` of an entry. -/
theorem Shape.drop {q : Ptr} {e : Entry Key Value} (hS : Shape d t order) (he : d.heap q = some e) :
    ∃ d' t' order', d.drop q = some d' ∧ Shape d' t' order' ∧
      d'.contents order' = KeyedList.erase Hasher.hash (d.contents order) e.hash := by
  have hq : q ∈ order := hS.live q (by simp [he])
  obtain ⟨xs, ys, rfl⟩ := List.append_of_mem hq
  obtain ⟨d', t', hd', hS', hsame⟩ := hS.dropMiddle
  refine ⟨d', t', xs ++ ys, hd', hS', ?_⟩
  have hdistinct := hS.distinct
  rw [contents_append, contents_cons he] at hdistinct
  obtain ⟨-, hy, hxy⟩ := List.pairwise_append.mp hdistinct
  obtain ⟨hy, -⟩ := List.pairwise_cons.mp hy
  have hh := hS.hashed q e he
  rw [contents_congr hsame, contents_append, contents_append, contents_cons he, KeyedList.erase, List.filter_append,
    List.filter_cons, hh]
  rw [List.filter_eq_self.mpr, List.filter_eq_self.mpr]
  · simp
  · intro p hp
    simpa using (hy p hp).symm
  · intro p hp
    simpa using hxy p hp (e.key, e.value) (by simp)

end Dictionary

end Srl
